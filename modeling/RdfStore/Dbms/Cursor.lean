import RdfStore.Dbms.Wire
import RdfStore.Lib.TableWalk

/-!
# The shared cursor of the server (`handler.c`)

All clients of a database walk it with one Berkeley DB cursor, and `lastfd`
remembers which of them moved it last.  For a client that was not the last
`do_next` means to put the cursor back on the client's key, but steps it forward
from where the other client left it.

    every client is answered as if it were alone
      ↔ the cursor is at hand whenever it asks for its next key      (cursorRun_iff)
-/

namespace RdfStore.Dbms

open OrderedTable

/-! ## Berkeley DB -/

/-- `DB_FIRST`, `DB_SET_RANGE`, `DB_NEXT` -/
inductive CursorFlag
  | first
  | setRange
  | next
  deriving DecidableEq

/-- What `c_get` returns: 0 with key and value, `DB_NOTFOUND`, or another error. -/
inductive CursorAnswer (κ β : Type)
  | found (e : κ × β)
  | notFound
  | error (err : Int)
  deriving DecidableEq

variable {κ β σ : Type}

def CursorAnswer.ofEntry : Option (κ × β) → CursorAnswer κ β
  | some e => .found e
  | none => .notFound

theorem ofEntry_injective : Function.Injective (CursorAnswer.ofEntry : Option (κ × β) → _) := by
  intro x y h
  cases x <;> cases y <;> cases h <;> rfl

/-- `c_get` of a cursor with the states `σ`; the key is the one passed in. -/
structure CursorApi (σ κ β : Type) where
  cGet : σ → CursorFlag → Option κ → CursorAnswer κ β × σ

section

variable [LinearOrder κ]

/-- The entry that a flag asks for, from the key the cursor stands on. -/
def seek (t : Table κ β) (position : Option κ) (flag : CursorFlag) (key : Option κ) :
    Option (κ × β) :=
  match flag, key with
  | .first, _ => t.entries.head?
  | .setRange, some k => t.entryFrom k
  | .setRange, none => t.entries.head?
  -- on a cursor that stands nowhere yet `DB_NEXT` is `DB_FIRST`
  | .next, _ => t.entryAfter position

/-- The cursor reads the table that nobody writes: `c_get` finds the entry its flag asks for
and moves there, and a cursor that finds nothing stays. -/
structure CursorApi.Reads (api : CursorApi σ κ β) (t : Table κ β) (position : σ → Option κ) :
    Prop where
  answer : ∀ c flag key,
    (api.cGet c flag key).1 = CursorAnswer.ofEntry (seek t (position c) flag key)
  moves : ∀ c flag key, position (api.cGet c flag key).2 =
    ((seek t (position c) flag key).map Prod.fst).or (position c)

end

/-! ## The handlers -/

/-- A database the clients share. -/
structure Dbase (σ : Type) where
  cursor : σ
  /-- the last connection from which the cursor was set -/
  lastfd : Int

/-- What the cursor handlers read of a connection. -/
structure Caller (κ : Type) where
  type : ConnType
  clientfd : Int
  v1 : Option κ

/-- What is sent back: a token and what `c_get` said. -/
structure Reply (κ β : Type) where
  token : Nat
  answer : CursorAnswer κ β

variable (api : CursorApi σ κ β)

def fromReply (flag : CursorFlag) (a : CursorAnswer κ β) : Reply κ β :=
  match a with
  | .error err => ⟨tokenError, .error err⟩
  | a => ⟨if flag = .first then tokenFirstkey else tokenFrom, a⟩

/-- `_from`; nothing is sent to a connection that is no client. -/
def fromKeyOn (d : Dbase σ) (r : Caller κ) (key : Option κ) (flag : CursorFlag) :
    Option (Reply κ β) × Dbase σ :=
  if r.type ≠ .client then (none, d)
  else
    let (a, c) := api.cGet d.cursor flag key
    (some (fromReply flag a), ⟨c, r.clientfd⟩)

/-- `do_first` -/
def doFirst (d : Dbase σ) (r : Caller κ) : Option (Reply κ β) × Dbase σ := fromKeyOn api d r none .first

/-- `do_from` -/
def doFrom (d : Dbase σ) (r : Caller κ) : Option (Reply κ β) × Dbase σ :=
  fromKeyOn api d r r.v1 .setRange

/-- A positive error is reported as not found. -/
def nextReply (a : CursorAnswer κ β) : Reply κ β :=
  match a with
  | .error err => if err > 0 then ⟨tokenNextkey, .notFound⟩ else ⟨tokenError, .error err⟩
  | a => ⟨tokenNextkey, a⟩

theorem nextReply_ofEntry (x : Option (κ × β)) :
    nextReply (CursorAnswer.ofEntry x) = ⟨tokenNextkey, CursorAnswer.ofEntry x⟩ := by
  cases x <;> rfl

/-- `do_next` -/
def doNext (d : Dbase σ) (r : Caller κ) : Option (Reply κ β) × Dbase σ :=
  if r.type ≠ .client then (none, d)
  else if d.lastfd ≠ r.clientfd then
    -- set the cursor first, if we were not the last using it
    match api.cGet d.cursor .next r.v1 with
    | (.error err, c) => (some ⟨tokenError, .error err⟩, ⟨c, r.clientfd⟩)
    | (.notFound, c) => (some ⟨tokenNextkey, .notFound⟩, ⟨c, r.clientfd⟩)
    | (.found e, c) =>
      let (a, c) := api.cGet c .next (some e.1)
      (some (nextReply a), ⟨c, r.clientfd⟩)
  else
    let (a, c) := api.cGet d.cursor .next none
    (some (nextReply a), ⟨c, d.lastfd⟩)

theorem doNext_last {d : Dbase σ} {fd : Int} (hfd : d.lastfd = fd) (v1 : Option κ) :
    doNext api d ⟨.client, fd, v1⟩ =
      (some (nextReply (api.cGet d.cursor .next none).1), ⟨(api.cGet d.cursor .next none).2, d.lastfd⟩) := by
  unfold doNext
  rw [if_neg (by simp), if_neg (by simpa using hfd)]

theorem doNext_other {d : Dbase σ} {fd : Int} (hfd : d.lastfd ≠ fd) (v1 : Option κ) :
    doNext api d ⟨.client, fd, v1⟩ =
      match api.cGet d.cursor .next v1 with
      | (.error err, c) => (some ⟨tokenError, .error err⟩, ⟨c, fd⟩)
      | (.notFound, c) => (some ⟨tokenNextkey, .notFound⟩, ⟨c, fd⟩)
      | (.found e, c) =>
        (some (nextReply (api.cGet c .next (some e.1)).1), ⟨(api.cGet c .next (some e.1)).2, fd⟩) := by
  unfold doNext
  rw [if_neg (by simp), if_pos hfd]

/-! ## Clients -/

/-- The requests about the cursor. -/
inductive CursorRequest (κ : Type)
  | firstKey
  | fromKey (k : κ)
  | nextKey (previous : κ)
  deriving DecidableEq

def serve (d : Dbase σ) (fd : Int) : CursorRequest κ → Option (Reply κ β) × Dbase σ
  | .firstKey => doFirst api d ⟨.client, fd, none⟩
  | .fromKey k => doFrom api d ⟨.client, fd, some k⟩
  | .nextKey k => doNext api d ⟨.client, fd, some k⟩

/-- A walk of one client: the key it began at, none for the first, and the answers so far. -/
structure Session (κ β : Type) where
  start : Option κ
  replies : List (CursorAnswer κ β)

/-- The key that the next request of the walk carries. -/
def Session.previous (s : Session κ β) : Option κ :=
  match s.replies.getLast? with
  | some (.found e) => some e.1
  | _ => none

theorem previous_append (start : Option κ) (rs : List (CursorAnswer κ β)) (x : Option (κ × β)) :
    Session.previous ⟨start, rs ++ [CursorAnswer.ofEntry x]⟩ = x.map Prod.fst := by
  unfold Session.previous
  rw [List.getLast?_append_of_ne_nil _ (List.cons_ne_nil _ _)]
  cases x <;> rfl

/-- The last of the answers that carry a key. -/
theorem previous_eq_some {s : Session κ β} {xs : List (Option (κ × β))} {k : κ}
    (hxs : s.replies = xs.map CursorAnswer.ofEntry) (h : s.previous = some k) :
    ∃ ys e, xs = ys ++ [some e] ∧ e.1 = k := by
  rcases List.eq_nil_or_concat' xs with rfl | ⟨ys, x, rfl⟩
  · rw [Session.previous, hxs] at h
    cases h
  · have hs : s = ⟨s.start, ys.map CursorAnswer.ofEntry ++ [CursorAnswer.ofEntry x]⟩ := by
      cases s
      simp only [Session.mk.injEq, true_and] at hxs ⊢
      simpa using hxs
    rw [hs, previous_append] at h
    obtain ⟨e, rfl, hk⟩ := Option.map_eq_some_iff.1 h
    exact ⟨ys, e, rfl, hk⟩

section

variable [DecidableEq κ]

/-- The walk of a client after a request: begun anew, carried on, or given up when the request
carries another key than the last one. -/
def Session.next (s : Option (Session κ β)) (req : CursorRequest κ) (a : CursorAnswer κ β) :
    Option (Session κ β) :=
  match req with
  | .firstKey => some ⟨none, [a]⟩
  | .fromKey k => some ⟨some k, [a]⟩
  | .nextKey k => (s.filter (·.previous = some k)).map fun s => { s with replies := s.replies ++ [a] }

/-- The database and what its clients know. -/
structure CursorState (σ κ β : Type) where
  dbase : Dbase σ
  sessions : Int → Option (Session κ β)

def CursorState.step (st : CursorState σ κ β) (fd : Int) (req : CursorRequest κ) :
    CursorState σ κ β :=
  let (reply, d) := serve api st.dbase fd req
  ⟨d, Function.update st.sessions fd (reply.bind fun r => Session.next (st.sessions fd) req r.answer)⟩

/-- Nobody has asked yet. -/
def CursorState.opened (d : Dbase σ) : CursorState σ κ β := ⟨d, fun _ => none⟩

end

/-! ## Alone -/

section

variable [LinearOrder κ] (t : Table κ β) (position : σ → Option κ)

/-- The answers are those the client gets when nobody else uses the cursor: the keys in order
from where it began, then not-found. -/
def Session.Alone (s : Session κ β) : Prop := s.replies <+: (t.walk s.start).map CursorAnswer.ofEntry

def CursorState.Alone (st : CursorState σ κ β) : Prop := ∀ fd s, st.sessions fd = some s → s.Alone t

/-- Every state of a run is one where each client is answered as if alone. -/
def AloneRun : List (Int × CursorRequest κ) → CursorState σ κ β → Prop
  | [], st => st.Alone t
  | (fd, req) :: run, st => st.Alone t ∧ AloneRun run (st.step api fd req)

/-- The client used the cursor last, or the cursor stands on the key before the client's one,
or both stand on the last key. -/
def CursorAtHand (d : Dbase σ) (fd : Int) (previous : κ) : Prop :=
  d.lastfd = fd ∨ (t.entryAfter (position d.cursor)).map Prod.fst = some previous ∨
    t.entryAfter (position d.cursor) = none ∧ t.entryAfter (some previous) = none

/-- A client that carries on its walk has the cursor at hand. -/
def CursorState.AtHand (st : CursorState σ κ β) (fd : Int) (req : CursorRequest κ) : Prop :=
  ∀ s k, st.sessions fd = some s → s.previous = some k → req = .nextKey k →
    CursorAtHand t position st.dbase fd k

def AtHandRun : List (Int × CursorRequest κ) → CursorState σ κ β → Prop
  | [], _ => True
  | (fd, req) :: run, st => st.AtHand t position fd req ∧ AtHandRun run (st.step api fd req)

/-! ## One request -/

/-- The entry a request is answered with. -/
def served (d : Dbase σ) (fd : Int) : CursorRequest κ → Option (κ × β)
  | .firstKey => t.entries.head?
  | .fromKey k => t.entryFrom k
  | .nextKey _ =>
    if d.lastfd = fd then t.entryAfter (position d.cursor) else t.entryAfterNext (position d.cursor)

variable {api t position}

theorem CursorApi.Reads.found (h : api.Reads t position) {c : σ} {flag : CursorFlag} {key : Option κ}
    {e : κ × β} (hseek : seek t (position c) flag key = some e) :
    (api.cGet c flag key).1 = .found e ∧ position (api.cGet c flag key).2 = some e.1 := by
  refine ⟨?_, ?_⟩
  · rw [h.answer, hseek]
    rfl
  · rw [h.moves, hseek]
    rfl

theorem CursorApi.Reads.notFound (h : api.Reads t position) {c : σ} {flag : CursorFlag}
    {key : Option κ} (hseek : seek t (position c) flag key = none) :
    (api.cGet c flag key).1 = .notFound := by
  rw [h.answer, hseek]
  rfl

/-- What a request does: it is answered, the client is noted as the last user of the cursor, and
the cursor stands on what was found. -/
structure Serves (t : Table κ β) (position : σ → Option κ) (d : Dbase σ) (fd : Int)
    (x : Option (κ × β)) (result : Option (Reply κ β) × Dbase σ) : Prop where
  reply : result.1.map Reply.answer = some (CursorAnswer.ofEntry x)
  lastfd : result.2.lastfd = fd
  stands : ∀ e, x = some e → position result.2.cursor = some e.1

theorem fromKeyOn_serves (h : api.Reads t position) (d : Dbase σ) (fd : Int) (v1 key : Option κ)
    (flag : CursorFlag) :
    Serves t position d fd (seek t (position d.cursor) flag key)
      (fromKeyOn api d ⟨.client, fd, v1⟩ key flag) := by
  unfold fromKeyOn
  rw [if_neg (by simp)]
  cases hseek : seek t (position d.cursor) flag key with
  | none =>
    refine ⟨?_, rfl, nofun⟩
    simp only [h.notFound hseek, fromReply, Option.map_some, CursorAnswer.ofEntry]
  | some e =>
    refine ⟨?_, rfl, ?_⟩
    · simp only [(h.found hseek).1, fromReply, Option.map_some, CursorAnswer.ofEntry]
    · rintro e' he
      cases he
      exact (h.found hseek).2

theorem doNext_serves (h : api.Reads t position) (d : Dbase σ) (fd : Int) (k : κ) :
    Serves t position d fd (served t position d fd (.nextKey k)) (doNext api d ⟨.client, fd, some k⟩) := by
  have hserved : served t position d fd (.nextKey k) = if d.lastfd = fd then
    t.entryAfter (position d.cursor) else t.entryAfterNext (position d.cursor) := rfl
  rw [hserved]
  by_cases hfd : d.lastfd = fd
  · -- one step from the client's own key
    rw [if_pos hfd, doNext_last api hfd]
    have hseek : seek t (position d.cursor) .next none = t.entryAfter (position d.cursor) := rfl
    refine ⟨?_, hfd, ?_⟩
    · simp only [h.answer, nextReply_ofEntry, Option.map_some, hseek]
    · intro e he
      exact (h.found (hseek.trans he)).2
  · -- two steps from where the cursor was left
    rw [if_neg hfd, doNext_other api hfd]
    have hseek : seek t (position d.cursor) .next (some k) = t.entryAfter (position d.cursor) := rfl
    unfold Table.entryAfterNext
    cases hnext : t.entryAfter (position d.cursor) with
    | none =>
      have hstep := h.notFound (hseek.trans hnext)
      cases hget : api.cGet d.cursor .next (some k) with
      | mk a c =>
        rw [hget] at hstep
        cases hstep
        exact ⟨rfl, rfl, nofun⟩
    | some e =>
      have hstep := h.found (hseek.trans hnext)
      cases hget : api.cGet d.cursor .next (some k) with
      | mk a c =>
        rw [hget] at hstep
        obtain ⟨rfl, hc⟩ := hstep
        have hseek' : seek t (position c) .next (some e.1) = t.entryAfter (some e.1) := by rw [← hc]; rfl
        refine ⟨?_, rfl, ?_⟩
        · simp only [h.answer, nextReply_ofEntry, Option.map_some, hseek', Option.bind_some]
        · intro e' he
          exact (h.found (hseek'.trans he)).2

theorem serve_serves (h : api.Reads t position) (d : Dbase σ) (fd : Int) (req : CursorRequest κ) :
    Serves t position d fd (served t position d fd req) (serve api d fd req) := by
  cases req with
  | firstKey => exact fromKeyOn_serves h d fd none none .first
  | fromKey k => exact fromKeyOn_serves h d fd (some k) (some k) .setRange
  | nextKey k => exact doNext_serves h d fd k

/-! ## One step -/

/-- The answers of every walk come from the table, and the cursor stands on the last answer of
the client that used it last. -/
structure CursorState.Tracked (t : Table κ β) (position : σ → Option κ) (st : CursorState σ κ β) :
    Prop where
  replies : ∀ fd s, st.sessions fd = some s → ∃ xs : List (Option (κ × β)), s.replies = xs.map CursorAnswer.ofEntry ∧
    ∀ x ∈ xs, ∀ e, x = some e → e ∈ t.entries
  stands : ∀ fd s k, st.sessions fd = some s → s.previous = some k → st.dbase.lastfd = fd →
    position st.dbase.cursor = some k

theorem opened_tracked (d : Dbase σ) : (CursorState.opened d : CursorState σ κ β).Tracked t position :=
  ⟨nofun, nofun⟩

theorem opened_alone (d : Dbase σ) : (CursorState.opened d : CursorState σ κ β).Alone t := nofun

theorem served_mem {d : Dbase σ} {fd : Int} {req : CursorRequest κ} {e : κ × β}
    (h : served t position d fd req = some e) : e ∈ t.entries := by
  cases req with
  | firstKey => exact List.mem_of_head? h
  | fromKey k => exact List.mem_of_find?_eq_some h
  | nextKey k =>
    replace h : (if d.lastfd = fd then t.entryAfter (position d.cursor)
      else t.entryAfterNext (position d.cursor)) = some e := h
    split at h
    · exact Table.mem_of_entryAfter h
    · obtain ⟨x, -, hx⟩ := Option.bind_eq_some_iff.1 h
      exact Table.mem_of_entryAfter hx

/-- What a step does to the walks. -/
theorem step_sessions (h : api.Reads t position) (st : CursorState σ κ β) (fd : Int)
    (req : CursorRequest κ) :
    (st.step api fd req).sessions = Function.update st.sessions fd
      (Session.next (st.sessions fd) req
        (CursorAnswer.ofEntry (served t position st.dbase fd req))) := by
  have hserves := serve_serves h st.dbase fd req
  unfold CursorState.step
  cases hreply : (serve api st.dbase fd req).1 with
  | none =>
    have := hserves.reply
    rw [hreply] at this
    cases this
  | some r =>
    have hr : r.answer = _ := Option.some.inj (by simpa [hreply] using hserves.reply)
    simp only [hreply, Option.bind_some, hr]

/-- The walk after a request: its first answer, or the old walk with one answer more. -/
theorem session_next_cases {old : Option (Session κ β)} {req : CursorRequest κ} {x : Option (κ × β)}
    {s : Session κ β} (h : Session.next old req (CursorAnswer.ofEntry x) = some s) :
    (req = .firstKey ∧ s = ⟨none, [CursorAnswer.ofEntry x]⟩) ∨
      (∃ k, req = .fromKey k ∧ s = ⟨some k, [CursorAnswer.ofEntry x]⟩) ∨
      ∃ k s₀, req = .nextKey k ∧ old = some s₀ ∧ s₀.previous = some k ∧
        s = ⟨s₀.start, s₀.replies ++ [CursorAnswer.ofEntry x]⟩ := by
  cases req with
  | firstKey => exact Or.inl ⟨rfl, (Option.some.inj h).symm⟩
  | fromKey k => exact Or.inr (Or.inl ⟨k, rfl, (Option.some.inj h).symm⟩)
  | nextKey k =>
    obtain ⟨s₀, hfilter, rfl⟩ := Option.map_eq_some_iff.1 h
    obtain ⟨hold, hk⟩ := Option.filter_eq_some_iff.1 hfilter
    exact Or.inr (Or.inr ⟨k, s₀, rfl, hold, by simpa using hk, rfl⟩)

theorem step_tracked (h : api.Reads t position) {st : CursorState σ κ β} (hst : st.Tracked t position)
    (fd : Int) (req : CursorRequest κ) : (st.step api fd req).Tracked t position := by
  have hserves := serve_serves h st.dbase fd req
  have hdbase : (st.step api fd req).dbase = (serve api st.dbase fd req).2 := rfl
  refine ⟨?_, ?_⟩
  · intro c s hs
    rw [step_sessions h, Function.update_apply] at hs
    split at hs
    · have hmem : ∀ e, served t position st.dbase fd req = some e → e ∈ t.entries := fun e => served_mem
      rcases session_next_cases hs with ⟨-, rfl⟩ | ⟨k, -, rfl⟩ | ⟨k, s₀, -, hold, -, rfl⟩
      · exact ⟨[_], rfl, by simpa using hmem⟩
      · exact ⟨[_], rfl, by simpa using hmem⟩
      · obtain ⟨xs, hxs, hall⟩ := hst.replies fd s₀ hold
        refine ⟨xs ++ [served t position st.dbase fd req], by simp [hxs], ?_⟩
        intro x hx e he
        rcases List.mem_append.1 hx with hx | hx
        · exact hall x hx e he
        · rw [List.mem_singleton] at hx
          exact hmem e (hx ▸ he)
    · exact hst.replies c s hs
  · intro c s k hs hk hlast
    rw [hdbase, hserves.lastfd] at hlast
    subst hlast
    rw [step_sessions h, Function.update_self] at hs
    have hprev : s.previous = (served t position st.dbase fd req).map Prod.fst := by
      rcases session_next_cases hs with ⟨-, rfl⟩ | ⟨_, -, rfl⟩ | ⟨_, s₀, -, -, -, rfl⟩
      · exact previous_append none [] _
      · exact previous_append _ [] _
      · exact previous_append _ _ _
    obtain ⟨e, he, rfl⟩ := Option.map_eq_some_iff.1 (hprev.symm.trans hk)
    rw [hdbase]
    exact hserves.stands e he

theorem walk_first_alone {start : Option κ} {x : Option (κ × β)} (h : x = (t.rest start).head?) :
    (⟨start, [CursorAnswer.ofEntry x]⟩ : Session κ β).Alone t := by
  have hwalk : [x] <+: t.walk start := by
    subst h
    unfold Table.walk
    cases t.rest start with
    | nil => exact List.prefix_rfl
    | cons e r => exact ⟨r.map some ++ [none], rfl⟩
  exact hwalk.map CursorAnswer.ofEntry

/-- A walk that goes on is answered right exactly when the cursor is at hand. -/
theorem walk_next_alone_iff {st : CursorState σ κ β} (hst : st.Tracked t position) {fd : Int} {k : κ}
    {s : Session κ β} (hs : st.sessions fd = some s) (hk : s.previous = some k) (halone : s.Alone t) :
    (⟨s.start, s.replies ++ [CursorAnswer.ofEntry (served t position st.dbase fd (.nextKey k))]⟩ :
        Session κ β).Alone t ↔
      CursorAtHand t position st.dbase fd k := by
  obtain ⟨xs, hxs, hmem⟩ := hst.replies fd s hs
  obtain ⟨ys, e, rfl, rfl⟩ := previous_eq_some hxs hk
  have he : e ∈ t.entries := hmem (some e) (by simp) e rfl
  have hwalk : ys ++ [some e] <+: t.walk s.start := by
    unfold Session.Alone at halone
    rw [hxs] at halone
    exact (List.prefix_map_iff_of_injective ofEntry_injective).1 halone
  have hright : served t position st.dbase fd (.nextKey e.1) = t.entryAfter (some e.1) ↔
      CursorAtHand t position st.dbase fd e.1 := by
    have hserved : served t position st.dbase fd (.nextKey e.1) = if st.dbase.lastfd = fd then
      t.entryAfter (position st.dbase.cursor) else t.entryAfterNext (position st.dbase.cursor) := rfl
    unfold CursorAtHand
    rw [hserved]
    split
    · next hfd => simp [hfd, hst.stands fd s e.1 hs hk hfd]
    · next hfd => rw [Table.entryAfterNext_eq_iff he, or_iff_right hfd]
  rw [← hright, ← Table.walk_extend_iff hwalk]
  have hreplies : s.replies ++ [CursorAnswer.ofEntry (served t position st.dbase fd (.nextKey e.1))] =
      (ys ++ [some e] ++ [served t position st.dbase fd (.nextKey e.1)]).map CursorAnswer.ofEntry := by
    simp only [hxs, List.map_append, List.map_cons, List.map_nil]
  unfold Session.Alone
  simp only [hreplies]
  exact List.prefix_map_iff_of_injective ofEntry_injective

theorem step_alone_iff (h : api.Reads t position) {st : CursorState σ κ β}
    (hst : st.Tracked t position) (halone : st.Alone t) (fd : Int) (req : CursorRequest κ) :
    (st.step api fd req).Alone t ↔ st.AtHand t position fd req := by
  constructor
  · rintro hstep s k hs hk rfl
    refine (walk_next_alone_iff hst hs hk (halone fd s hs)).1 (hstep fd _ ?_)
    rw [step_sessions h, Function.update_self, hs]
    have hfilter : (some s).filter (fun s => decide (s.previous = some k)) = some s := by
      rw [Option.filter_some, if_pos (by simpa using hk)]
    exact congrArg (Option.map _) hfilter
  · intro hat c s hs
    rw [step_sessions h, Function.update_apply] at hs
    split at hs
    · rcases session_next_cases hs with ⟨rfl, rfl⟩ | ⟨k, rfl, rfl⟩ | ⟨k, s₀, rfl, hold, hk, rfl⟩
      · exact walk_first_alone rfl
      · refine walk_first_alone ?_
        show t.entries.find? (fun x => decide (k ≤ x.1)) = (t.above k).head?
        unfold Table.above
        rw [List.head?_filter]
      · exact (walk_next_alone_iff hst hold hk (halone fd s₀ hold)).2 (hat s₀ k hold hk rfl)
    · exact halone c s hs

/-! ## Runs -/

theorem AloneRun.head {run : List (Int × CursorRequest κ)} {st : CursorState σ κ β}
    (h : AloneRun api t run st) : st.Alone t := by
  cases run with
  | nil => exact h
  | cons _ _ => exact h.1

theorem aloneRun_iff (h : api.Reads t position) (run : List (Int × CursorRequest κ)) :
    ∀ st : CursorState σ κ β, st.Tracked t position → st.Alone t →
      (AloneRun api t run st ↔ AtHandRun api t position run st) := by
  induction run with
  | nil => exact fun st _ halone => ⟨fun _ => trivial, fun _ => halone⟩
  | cons move run ih =>
    intro st hst halone
    obtain ⟨fd, req⟩ := move
    have htracked := step_tracked h hst fd req
    have hstep := step_alone_iff h hst halone fd req
    constructor
    · rintro ⟨-, hrun⟩
      exact ⟨hstep.1 hrun.head, (ih _ htracked hrun.head).1 hrun⟩
    · rintro ⟨hat, hrun⟩
      exact ⟨halone, (ih _ htracked (hstep.2 hat)).2 hrun⟩

/-- Over a table that nobody writes, each client is answered as if it were alone, in every state
of a run, if and only if the cursor is at hand whenever a client carries on its walk. -/
theorem cursorRun_iff (h : api.Reads t position) (d : Dbase σ) (run : List (Int × CursorRequest κ)) :
    AloneRun api t run (CursorState.opened d) ↔ AtHandRun api t position run (CursorState.opened d) :=
  aloneRun_iff h run _ (opened_tracked d) (opened_alone d)

end

/-! ## A cursor over a table -/

/-- The cursor that is the key it stands on. -/
def tableCursor [LinearOrder κ] (t : Table κ β) : CursorApi (Option κ) κ β :=
  ⟨fun c flag key =>
    (CursorAnswer.ofEntry (seek t c flag key), ((seek t c flag key).map Prod.fst).or c)⟩

theorem tableCursor_reads [LinearOrder κ] (t : Table κ β) : (tableCursor t).Reads t id :=
  ⟨fun _ _ _ => rfl, fun _ _ _ => rfl⟩

def threeKeys : Table Nat Nat := ⟨[(1, 10), (2, 20), (3, 30)], by decide⟩

/-- Clients that walk one after the other. -/
theorem cursorRun_in_turn :
    AloneRun (tableCursor threeKeys) threeKeys
      [(5, .firstKey), (5, .nextKey 1), (5, .nextKey 2), (6, .fromKey 2), (6, .nextKey 2)]
      (CursorState.opened ⟨none, 0⟩) := by
  refine (cursorRun_iff (tableCursor_reads threeKeys) _ _).2 ⟨?_, ?_, ?_, ?_, ?_, trivial⟩ <;>
    (intro s k _ _ hreq; cases hreq)
  · exact Or.inl rfl
  · exact Or.inl rfl
  · exact Or.inl rfl

/-- Two clients that take turns: the first one is not given key 2. -/
theorem cursorRun_skips_key :
    ¬ AloneRun (tableCursor threeKeys) threeKeys
      [(5, .firstKey), (6, .firstKey), (5, .nextKey 1)] (CursorState.opened ⟨none, 0⟩) := by
  rintro ⟨-, -, -, h⟩
  have hprefix := h 5 _ rfl
  revert hprefix
  unfold Session.Alone
  decide

end RdfStore.Dbms
