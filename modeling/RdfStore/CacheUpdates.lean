import RdfStore.CacheFaults

/-!
# Updates that are lost

A stored value stays in the cache until its entry has to leave or the cache is purged.
What the real store then says is looked at by nobody: the entry is gone either way.

    at every point of a run every acknowledged value is there
      ↔ whatever is written back is accepted, or the operation that does it fails     (keptRun_iff)
-/

namespace RdfStore

open ByteMem Ring SortedIndex

/-! ## Entries that leave -/

/-- The key an operation brings to the cache. -/
def CounterOp.key : CounterOp → Option Bytes
  | .cache op => op.access.map (·.1.key)
  | .inc key | .dec key => some key

def CounterOp.purges : CounterOp → Bool
  | .cache (.plain .sync) | .cache .first | .cache (.next _) | .cache (.fromKey _) | .cache .close => true
  | _ => false

/-- The data of all cells, from the head on. -/
def CachingStore.inOrder (c : CachingStore) : List CacheData :=
  match c.head with
  | some head => traverse c.cells head (fun ds q => ds ++ [(c.cells q).data]) c.idx.length head []
  | none => []

/-- The data of the tail. -/
def CachingStore.last (c : CachingStore) : Option CacheData :=
  c.head.map fun head => (c.cells (c.cells head).prev).data

/-- The entries that an operation makes leave the cache. -/
def CachingStore.leaving (c : CachingStore) (op : CounterOp) : List CacheData :=
  match op.key with
  | some key => if c.lookup ⟨key, [], .undef⟩ = none ∧ c.maxcache ≤ c.idx.length then c.last.toList else []
  | none => if op.purges then c.inOrder else []

/-! ## Acknowledged values -/

/-- What an operation itself makes of the value acknowledged for `k`: `some none` is none. -/
def CounterOp.ownAck (k : Bytes) : CounterOp → Reply → Option (Option Bytes)
  | .cache (.plain (.store key val)), .ok _ => if k = key then some (some val) else none
  | .cache (.plain (.delete key)), _ | .cache (.storeCompressed key _), _ => if k = key then some none else none
  | .inc key, .ok v | .dec key, .ok v => if k = key then some v else none
  | _, _ => none

/-- That a value may be lost is reported when the operation that wrote it back answers an error. -/
def unreported (acked : Bytes → Option Bytes) (leave : List CacheData) (r : Reply) (k : Bytes) : Option Bytes :=
  if r.isOk = false ∧ ∃ d ∈ leave, d.state = .changed ∧ d.key = k then none else acked k

/-- The values acknowledged and not overwritten or deleted since, after an operation. -/
def CounterOp.acked (acked : Bytes → Option Bytes) (leave : List CacheData) (r : Reply) (op : CounterOp)
    (k : Bytes) : Option Bytes :=
  (op.ownAck k r).getD (unreported acked leave r k)

section

variable {σ : Type} (b : CursorBackend σ) (encode decode : Bytes → Bytes) (view : σ → FlatDb)

/-- A fetch of every key answers the value acknowledged for it. -/
def Kept (acked : Bytes → Option Bytes) (me : BackendCaching σ) : Prop :=
  ∀ k v, acked k = some v → ∃ me', backendCachingFetch b.toBackend me k = some (.ok v, me')

def KeptRun : List CounterOp → (Bytes → Option Bytes) → BackendCaching σ → Prop
  | [], acked, me => Kept b acked me
  | op :: ops, acked, me => Kept b acked me ∧
      ∀ r me', op.step b encode decode me = some (r, me') → KeptRun ops (op.acked acked (me.cache.leaving op) r) me'

/-- The real store accepts the changed entries, one after the other, or has the value already. -/
def Accepts (acked : Bytes → Option Bytes) : List CacheData → σ → Prop
  | [], _ => True
  | d :: ds, s =>
    (d.state = .changed → acked d.key = some d.val →
      (b.store s d.key d.val).1 = .ok () ∨ rdfstoreFlatStoreFetch (view s) d.key = some d.val) ∧
    Accepts acked ds (cacheStore b.toBackend s d).2

/-- The real store, in the state `s`, answers what an operation asks it for with an error. -/
def CounterOp.RealError (s : σ) : CounterOp → Prop
  | .cache (.plain (.fetch key)) | .cache (.plain (.exist key)) | .inc key | .dec key =>
    ∃ e, (b.fetch s key).1 = .error e
  | .cache (.plain (.delete key)) => ∃ e, (b.delete s key).1 = .error e ∧ e ≠ .keyExist
  | .cache op => ∃ e s', op.afterPurge b s = some (.error e, s')

/-- The real store accepts what leaves the cache, or the operation fails. -/
def CounterOp.WritesBack (acked : Bytes → Option Bytes) (leave : List CacheData) (s : σ) (op : CounterOp) : Prop :=
  Accepts b view acked leave s ∨ op.RealError b (writeBackAll b.toBackend leave s)

def WritesBackRun : List CounterOp → (Bytes → Option Bytes) → BackendCaching σ → Prop
  | [], _, _ => True
  | op :: ops, acked, me => ∀ r me', op.step b encode decode me = some (r, me') →
      op.WritesBack b view acked (me.cache.leaving op) me.inst ∧
        WritesBackRun ops (op.acked acked (me.cache.leaving op) r) me'

end

/-! ## Entries that leave, by the list -/

section

variable {c : CachingStore} {l : List Addr}

theorem CachingStore.Ok.inOrder (h : c.Ok l) : c.inOrder = c.entries l := by
  unfold CachingStore.inOrder CachingStore.entries
  cases l with
  | nil => rw [show c.head = none from h.head]; rfl
  | cons hd t =>
    have hhead : c.head = some hd := h.head
    have hfuel : t.length < c.idx.length := by
      rw [h.idx.length_eq]
      exact Nat.lt_succ_self _
    have hfold : ∀ (as : List Addr) (ds : List CacheData),
        as.foldl (fun ds q => ds ++ [(c.cells q).data]) ds = ds ++ as.map fun a => (c.cells a).data := by
      intro as
      induction as with
      | nil => intro ds; exact (List.append_nil ds).symm
      | cons a as ih =>
        intro ds
        rw [List.foldl_cons, ih, List.map_cons, List.append_assoc, List.singleton_append]
    simp only [hhead, h.ring.traverse _ hfuel]
    exact hfold (hd :: t) []

theorem CachingStore.Ok.last (h : c.Ok l) : c.last = (c.entries l).getLast? := by
  unfold CachingStore.last CachingStore.entries
  cases l with
  | nil => rw [show c.head = none from h.head]; rfl
  | cons hd t =>
    rw [show c.head = some hd from h.head, List.getLast?_map, List.getLast?_eq_getLast_of_ne_nil (List.cons_ne_nil hd t)]
    exact congrArg (fun a => some (c.cells a).data) h.ring.last.2

/-- The same, of a list of entries. -/
def leavingOf (maxcache : Nat) (entries : List CacheData) (op : CounterOp) : List CacheData :=
  match op.key with
  | some key => if ∀ d ∈ entries, d.key ≠ key then evicted maxcache entries else []
  | none => if op.purges then entries else []

theorem CachingStore.Ok.leaving (h : c.Ok l) (op : CounterOp) :
    c.leaving op = leavingOf c.maxcache (c.entries l) op := by
  unfold CachingStore.leaving leavingOf
  split
  · next key hkey =>
    have hmiss : c.lookup ⟨key, [], .undef⟩ = none ↔ ∀ d ∈ c.entries l, d.key ≠ key := by
      rw [h.lookup_none]
      unfold CachingStore.entries
      refine ⟨fun hall d hd => ?_, fun hall a ha => hall _ (List.mem_map_of_mem ha)⟩
      obtain ⟨a, ha, rfl⟩ := List.mem_map.1 hd
      exact hall a ha
    have hlen : (c.entries l).length = l.length := List.length_map _
    simp only [hmiss, h.last, evicted, hlen, h.idx.length_eq]
    have hroom := h.room
    by_cases hall : ∀ d ∈ c.entries l, d.key ≠ key
    · by_cases hfull : l.length = c.maxcache
      · rw [if_pos ⟨hall, hfull.ge⟩, if_pos hall, if_pos hfull]
      · rw [if_neg fun hc => hfull (le_antisymm hroom hc.2), if_pos hall, if_neg hfull]
    · rw [if_neg fun hc => hall hc.1, if_neg hall]
  · rw [h.inOrder]

end

/-! ## Values that are held and values that are lost -/

/-- The entry of the key has the value, or there is none and the table has it. -/
def HoldsValue (entries : List CacheData) (db : FlatDb) (k v : Bytes) : Prop :=
  (∃ d ∈ entries, d.key = k ∧ d.val = v ∧
      (d.state = .changed ∨ d.state = .exist ∧ rdfstoreFlatStoreFetch db k = some v)) ∨
    (∀ d ∈ entries, d.key ≠ k) ∧ rdfstoreFlatStoreFetch db k = some v

def LosesValue (entries : List CacheData) (db : FlatDb) (k v : Bytes) : Prop :=
  (∀ d ∈ entries, d.key ≠ k) ∧ rdfstoreFlatStoreFetch db k ≠ some v

section

variable {entries entries' rest : List CacheData} {db db' : FlatDb} {k v : Bytes} {d : CacheData}

/-- The head is of another key, and so is what was changed in the table. -/
theorem HoldsValue.cons (h : HoldsValue entries db k v) (hk : k ≠ d.key)
    (hrest : ∀ x ∈ entries, x.key = k → x ∈ rest) (hsub : ∀ x ∈ rest, x ∈ entries)
    (hdb : rdfstoreFlatStoreFetch db' k = rdfstoreFlatStoreFetch db k) : HoldsValue (d :: rest) db' k v := by
  rcases h with ⟨x, hx, hkey, hval, hstate⟩ | ⟨hout, hheld⟩
  · exact Or.inl ⟨x, List.mem_cons_of_mem d (hrest x hx hkey), hkey, hval, hdb ▸ hstate⟩
  · refine Or.inr ⟨fun x hx => ?_, hdb ▸ hheld⟩
    rcases List.mem_cons.1 hx with rfl | hx
    · exact hk.symm
    · exact hout x (hsub x hx)

theorem LosesValue.cons (h : LosesValue entries db k v) (hk : k ≠ d.key) (hsub : ∀ x ∈ rest, x ∈ entries)
    (hdb : rdfstoreFlatStoreFetch db' k = rdfstoreFlatStoreFetch db k) : LosesValue (d :: rest) db' k v := by
  refine ⟨fun x hx => ?_, hdb ▸ h.2⟩
  rcases List.mem_cons.1 hx with rfl | hx
  · exact hk.symm
  · exact h.1 x (hsub x hx)

end

/-! ## What is written back -/

section

variable {σ : Type} {b : CursorBackend σ} {view : σ → FlatDb} {acked : Bytes → Option Bytes}
  {entries : List CacheData} {s inst inst' : σ} {k v : Bytes} {d : CacheData}

theorem cacheStore_accepts (hb : b.IsTable view) (hchanged : d.state = .changed) :
    ((b.store s d.key d.val).1 = .ok () ∨ rdfstoreFlatStoreFetch (view s) d.key = some d.val) ↔
      rdfstoreFlatStoreFetch (view (cacheStore b.toBackend s d).2) d.key = some d.val := by
  have hsnd : (cacheStore b.toBackend s d).2 = (b.store s d.key d.val).2 := by
    unfold cacheStore
    rw [if_neg (not_not.2 hchanged)]
    split
    · next inst hr => rw [hr]
    · rfl
  rw [hsnd]
  cases hr : (b.store s d.key d.val).1 with
  | ok u =>
    rw [hb.store_ok s d.key d.val hr, fetch_store_same]
    exact iff_of_true (Or.inl rfl) rfl
  | error e =>
    rw [hb.store_error s d.key d.val e hr]
    exact ⟨fun h => h.resolve_left nofun, Or.inr⟩

/-- The real store accepted the changed entries exactly when it has them afterwards. -/
theorem accepts_iff (hb : b.IsTable view) {ds : List CacheData} (hdistinct : ds.Pairwise fun a c => a.key ≠ c.key) :
    Accepts b view acked ds s ↔ ∀ d ∈ ds, d.state = .changed → acked d.key = some d.val →
      rdfstoreFlatStoreFetch (view (writeBackAll b.toBackend ds s)) d.key = some d.val := by
  induction ds generalizing s with
  | nil => exact iff_of_true trivial nofun
  | cons d ds ih =>
    obtain ⟨hhead, htail⟩ := List.pairwise_cons.1 hdistinct
    have hback : writeBackAll b.toBackend (d :: ds) s =
        writeBackAll b.toBackend ds (cacheStore b.toBackend s d).2 := rfl
    have hkeep : rdfstoreFlatStoreFetch (view (writeBackAll b.toBackend ds (cacheStore b.toBackend s d).2)) d.key =
        rdfstoreFlatStoreFetch (view (cacheStore b.toBackend s d).2) d.key :=
      writeBackAll_off hb fun x hx _ => (hhead x hx).symm
    rw [Accepts, ih htail, List.forall_mem_cons, hback, hkeep]
    refine and_congr_left fun _ => forall_congr' fun hchanged => forall_congr' fun _ => ?_
    exact cacheStore_accepts hb hchanged

/-- Some entries stay and the others are written back. -/
structure Parts (entries stay leave : List CacheData) : Prop where
  mem : ∀ d, d ∈ entries ↔ d ∈ stay ∨ d ∈ leave
  distinct : ∀ d ∈ entries, ∀ d' ∈ entries, d.key = d'.key → d = d'
  apart : ∀ d ∈ stay, ∀ d' ∈ leave, d.key ≠ d'.key

variable {stay leave : List CacheData}

/-- A value whose changed entry does not leave, or leaves for the real store, is held afterwards. -/
theorem HoldsValue.writeBack (hb : b.IsTable view) (hparts : Parts entries stay leave)
    (h : HoldsValue entries (view inst) k v)
    (haccept : ∀ d ∈ leave, d.state = .changed → d.key = k → d.val = v →
      rdfstoreFlatStoreFetch (view (writeBackAll b.toBackend leave inst)) k = some v) :
    HoldsValue stay (view (writeBackAll b.toBackend leave inst)) k v := by
  have hstay : ∀ x ∈ stay, x ∈ entries := fun x hx => (hparts.mem x).2 (Or.inl hx)
  have hleave : ∀ x ∈ leave, x ∈ entries := fun x hx => (hparts.mem x).2 (Or.inr hx)
  have hoff : (∀ x ∈ leave, x.state = .changed → x.key ≠ k) →
      rdfstoreFlatStoreFetch (view (writeBackAll b.toBackend leave inst)) k = rdfstoreFlatStoreFetch (view inst) k :=
    writeBackAll_off hb
  rcases h with ⟨x, hx, hkey, hval, hstate⟩ | ⟨hout, hheld⟩
  · rcases (hparts.mem x).1 hx with hin | hin
    · have hsame := hoff fun y hy _ hyk => hparts.apart x hin y hy (hkey.trans hyk.symm)
      exact Or.inl ⟨x, hin, hkey, hval, hsame ▸ hstate⟩
    · refine Or.inr ⟨fun y hy hyk => hparts.apart y hy x hin (hyk.trans hkey.symm), ?_⟩
      rcases hstate with hchanged | ⟨hexist, hheld⟩
      · exact haccept x hin hchanged hkey hval
      · rw [hoff fun y hy hchanged hyk => ?_]
        · exact hheld
        · have hxy : y = x := hparts.distinct y (hleave y hy) x hx (hyk.trans hkey.symm)
          rw [hxy, hexist] at hchanged
          cases hchanged
  · refine Or.inr ⟨fun y hy => hout y (hstay y hy), ?_⟩
    rw [hoff fun y hy _ => hout y (hleave y hy)]
    exact hheld

/-- Every value that counts is held. -/
def AckedHeld (acked : Bytes → Option Bytes) (entries : List CacheData) (db : FlatDb) : Prop :=
  ∀ k v, acked k = some v → HoldsValue entries db k v

/-- After the writing back every value that counts is held, or the real store did not accept one and the
answer is no error. -/
theorem AckedHeld.writeBack (hb : b.IsTable view) (hparts : Parts entries stay leave)
    (hdistinct : leave.Pairwise fun a c => a.key ≠ c.key) (h : AckedHeld acked entries (view inst)) (r : Reply) :
    ((Accepts b view acked leave inst ∨ r.isOk = false) ∧
        AckedHeld (unreported acked leave r) stay (view (writeBackAll b.toBackend leave inst))) ∨
      ¬ (Accepts b view acked leave inst ∨ r.isOk = false) ∧
        ∃ d ∈ leave, unreported acked leave r d.key = some d.val ∧
          LosesValue stay (view (writeBackAll b.toBackend leave inst)) d.key d.val := by
  have hold : ∀ k v, unreported acked leave r k = some v →
      acked k = some v ∧ ¬ (r.isOk = false ∧ ∃ d ∈ leave, d.state = .changed ∧ d.key = k) := by
    intro k v hk
    unfold unreported at hk
    split at hk
    · cases hk
    · next hnot => exact ⟨hk, hnot⟩
  by_cases hor : Accepts b view acked leave inst ∨ r.isOk = false
  · refine Or.inl ⟨hor, fun k v hk => ?_⟩
    obtain ⟨hack, hnot⟩ := hold k v hk
    refine (h k v hack).writeBack hb hparts fun d hd hchanged hkey hval => ?_
    rcases hor with haccepts | hr
    · subst hkey hval
      exact (accepts_iff hb hdistinct).1 haccepts d hd hchanged hack
    · exact absurd ⟨hr, d, hd, hchanged, hkey⟩ hnot
  · refine Or.inr ⟨hor, ?_⟩
    obtain ⟨hrefused, hr⟩ := not_or.1 hor
    rw [accepts_iff hb hdistinct] at hrefused
    push Not at hrefused
    obtain ⟨d, hd, hchanged, hack, hne⟩ := hrefused
    refine ⟨d, hd, ?_, fun x hx => hparts.apart x hx d hd, hne⟩
    unfold unreported
    rw [if_neg fun hc => hr hc.1]
    exact hack

end

/-! ## One operation -/

theorem ownAck_of_ne {op : CounterOp} {key k : Bytes} (hkey : op.key = some key) (hk : k ≠ key) (r : Reply) :
    op.ownAck k r = none := by
  cases op with
  | cache op =>
    cases op with
    | plain op =>
      cases op with
      | store key' val =>
        cases hkey
        cases r with
        | ok v => exact if_neg hk
        | error e => rfl
      | delete key' => cases hkey; exact if_neg hk
      | fetch | exist | sync => rfl
    | fetchCompressed | storeCompressed | first | next | fromKey | close => cases hkey
  | inc key' | dec key' =>
    cases hkey
    cases r with
    | ok v => exact if_neg hk
    | error e => rfl

theorem acked_of_ne {op : CounterOp} {key k : Bytes} (hkey : op.key = some key) (hk : k ≠ key) (r : Reply)
    (acked : Bytes → Option Bytes) (leave : List CacheData) :
    op.acked acked leave r k = unreported acked leave r k := by
  unfold CounterOp.acked
  rw [ownAck_of_ne hkey hk]
  rfl

theorem unreported_nil (acked : Bytes → Option Bytes) (r : Reply) : unreported acked [] r = acked := by
  funext k
  exact if_neg fun h => by
    obtain ⟨-, d, hd, -⟩ := h
    cases hd

section

variable {σ : Type} {b : CursorBackend σ} {view : σ → FlatDb} {encode decode : Bytes → Bytes}
  {acked acked' : Bytes → Option Bytes} {n : Nat} {entries entries' stay rest : List CacheData} {inst inst' : σ}
  {d data : CacheData} {e : Except FlatStoreError Unit} {bop : BcOp}

/-- What the new head is of is what the operation is about. -/
theorem AckedHeld.cons {db db' : FlatDb} (h : AckedHeld acked stay db)
    (hrest : ∀ x ∈ stay, x.key ≠ d.key → x ∈ rest) (hsub : ∀ x ∈ rest, x ∈ stay) (hoff : SameOff d.key db db')
    (hacked : ∀ k, k ≠ d.key → acked' k = acked k) (hown : ∀ v, acked' d.key = some v → HoldsValue (d :: rest) db' d.key v) :
    AckedHeld acked' (d :: rest) db' := by
  intro k v hk
  by_cases hkey : k = d.key
  · subst hkey
    exact hown v hk
  · rw [hacked k hkey] at hk
    exact (h k v hk).cons hkey (fun x hx hxk => hrest x hx (hxk ▸ hkey)) hsub (hoff k hkey)

/-- An operation that fills a new cell fails when the real store fails. -/
theorem StoreOp.realError_iff {op : StoreOp} (haccess : op.access = some (data, bop)) {s : σ}
    (hnew : newData b.toBackend bop s data = (e, d, inst')) :
    (CounterOp.cache (.plain op)).RealError b s ↔ (op.answer e d).isOk = false := by
  have hfetch : cacheFetch b.toBackend s data = (e, d, inst') →
      ((∃ err, (b.fetch s data.key).1 = .error err) ↔ (∃ err, e = .error err) ∨ d.state = .notFound) ∧
      (e = .ok () → d.state = .exist ∨ d.state = .notFound) := by
    intro hr
    unfold cacheFetch at hr
    split at hr
    · next val s' hs => cases hr; rw [hs]; exact ⟨by simp, fun _ => Or.inl rfl⟩
    · next s' hs => cases hr; rw [hs]; exact ⟨by simp, fun _ => Or.inr rfl⟩
    · next err s' hne hs => cases hr; rw [hs]; exact ⟨by simp, nofun⟩
  cases op with
  | store key val =>
    cases haccess
    cases hnew
    exact iff_of_false (fun ⟨_, _, h⟩ => by cases h) nofun
  | fetch key =>
    cases haccess
    refine (hfetch hnew).1.trans ?_
    cases e with
    | error err => exact iff_of_true (Or.inl ⟨err, rfl⟩) rfl
    | ok u =>
      by_cases hs : d.state = .notFound
      · simp [StoreOp.answer, hs, Except.isOk, Except.toBool]
      · simp [StoreOp.answer, hs, Except.isOk, Except.toBool]
  | exist key =>
    cases haccess
    obtain ⟨hiff, hstate⟩ := hfetch hnew
    refine hiff.trans ?_
    cases e with
    | error err => exact iff_of_true (Or.inl ⟨err, rfl⟩) rfl
    | ok u =>
      rcases hstate rfl with hs | hs
      · simp [StoreOp.answer, hs, Except.isOk, Except.toBool]
      · simp [StoreOp.answer, hs, Except.isOk, Except.toBool]
  | delete key =>
    cases haccess
    have hnew : cacheDelete b.toBackend s ⟨key, [], .undef⟩ = (e, d, inst') := hnew
    unfold cacheDelete at hnew
    show (∃ err, (b.delete s key).1 = .error err ∧ err ≠ .keyExist) ↔ _
    split at hnew
    · next s' hs => cases hnew; rw [show (b.delete s key) = _ from hs]; simp [StoreOp.answer, Except.isOk, Except.toBool]
    · next e' s' hne hs =>
      cases hnew
      rw [show (b.delete s key) = _ from hs]
      cases e with
      | ok u => simp [StoreOp.answer, Except.isOk, Except.toBool]
      | error err =>
        refine iff_of_true ⟨err, rfl, fun he => ?_⟩ rfl
        subst he
        exact hne rfl
  | sync => cases haccess

/-- What an operation makes of the values that count: all are held if what left was accepted, or the
operation failed; else one is lost. -/
def CounterOp.Outcome (b : CursorBackend σ) (view : σ → FlatDb) (acked : Bytes → Option Bytes)
    (leave : List CacheData) (inst : σ) (op : CounterOp) (r : Reply) (entries' : List CacheData) (inst' : σ) : Prop :=
  (op.WritesBack b view acked leave inst ∧ AckedHeld (op.acked acked leave r) entries' (view inst')) ∨
    ¬ op.WritesBack b view acked leave inst ∧
      ∃ k v, op.acked acked leave r k = some v ∧ LosesValue entries' (view inst') k v

/-- A read that finds the entry or fills the cell holds the value. -/
theorem holdsValue_own {op : StoreOp} (haccess : op.access = some (data, bop)) (hkey : d.key = data.key)
    (hstore : bop = .write → d = data) {leave : List CacheData} {v : Bytes} {db : FlatDb}
    (hread : bop = .read ∨ bop = .exist → unreported acked leave (op.answer e d) data.key = some v →
      d.val = v ∧ (d.state = .changed ∨ d.state = .exist ∧ rdfstoreFlatStoreFetch db data.key = some v))
    (hv : (CounterOp.cache (.plain op)).acked acked leave (op.answer e d) data.key = some v)
    (he : bop = .write → e = .ok ()) : HoldsValue (d :: rest) db data.key v := by
  refine Or.inl ⟨d, List.mem_cons_self, hkey, ?_⟩
  cases op with
  | store key val =>
    cases haccess
    cases hstore rfl
    cases he rfl
    have hv : (if key = key then some (some val) else none).getD (unreported acked leave (.ok none) key) = some v := hv
    rw [if_pos rfl] at hv
    cases hv
    exact ⟨rfl, Or.inl rfl⟩
  | fetch key => cases haccess; exact hread (Or.inl rfl) hv
  | exist key => cases haccess; exact hread (Or.inr rfl) hv
  | delete key =>
    cases haccess
    have hv : (if key = key then some none else none).getD (unreported acked leave _ key) = some v := hv
    rw [if_pos rfl] at hv
    cases hv
  | sync => cases haccess

/-- A value that the real store has is fetched, if fetching does not fail. -/
theorem cacheFetch_held (hb : b.IsTable view) (hfetch : ∀ s k e, (b.fetch s k).1 = .error e → e = .notFound)
    {s : σ} {v : Bytes} (hv : rdfstoreFlatStoreFetch (view s) data.key = some v)
    (hr : cacheFetch b.toBackend s data = (e, d, inst')) :
    e = .ok () ∧ d.val = v ∧ d.state = .exist ∧ view inst' = view s := by
  have hview := hb.fetch_view s data.key
  unfold cacheFetch at hr
  split at hr
  · next val s' hs =>
    have hval := hb.fetch_ok s data.key val (by rw [hs])
    rw [hs] at hview
    cases hr
    exact ⟨rfl, Option.some.inj (hval.symm.trans hv), rfl, hview⟩
  · next s' hs =>
    have hnone := hb.fetch_notFound s data.key (by rw [hs])
    rw [hnone] at hv
    cases hv
  · next err s' hne hs =>
    cases hfetch s data.key err (by rw [hs])
    exact (hne rfl).elim

theorem AckedHeld.key (hb : b.IsTable view) (hfetch : ∀ s k e, (b.fetch s k).1 = .error e → e = .notFound)
    (hdistinct : entries.Pairwise fun a c => a.key ≠ c.key) (h : AckedHeld acked entries (view inst)) {op : StoreOp}
    (haccess : op.access = some (data, bop))
    (hr : lruKey b.toBackend n entries inst data bop = (e, d, entries', inst')) :
    (CounterOp.cache (.plain op)).Outcome b view acked (leavingOf n entries (.cache (.plain op))) inst
      (op.answer e d) entries' inst' := by
  have hopkey : (CounterOp.cache (.plain op)).key = some data.key := by
    show op.access.map (·.1.key) = some data.key
    rw [haccess]
    rfl
  have hunique : ∀ x ∈ entries, ∀ y ∈ entries, x.key = y.key → x = y := by
    intro x hx y hy hxy
    exact List.inj_on_of_nodup_map (List.pairwise_map.2 hdistinct) hx hy hxy
  rcases lruKey_cases hr with ⟨hmiss, hnew, rfl⟩ | ⟨found, hmem, hkey, -, hfound, rfl⟩
  · have hleave : leavingOf n entries (.cache (.plain op)) = evicted n entries := by
      unfold leavingOf
      rw [hopkey]
      exact if_pos hmiss
    have hdkey : d.key = data.key := (lruKey_head hr).1
    have hall : kept n entries ++ evicted n entries = entries := kept_append_evicted n entries
    have happend := List.pairwise_append.1 (hall.symm ▸ hdistinct)
    have hparts : Parts entries (kept n entries) (evicted n entries) :=
      ⟨fun x => by rw [← List.mem_append, hall], hunique, happend.2.2⟩
    have hsub : ∀ x ∈ kept n entries, x.key ≠ data.key := fun x hx => hmiss x ((hparts.mem x).2 (Or.inl hx))
    have hoff : SameOff d.key (view (writeBackAll b.toBackend (evicted n entries) inst)) (view inst') :=
      hdkey ▸ newData_off hb hnew
    rw [hleave]
    unfold CounterOp.Outcome CounterOp.WritesBack
    rw [StoreOp.realError_iff haccess hnew]
    rcases h.writeBack hb hparts happend.2.1 (op.answer e d) with ⟨hor, hheld⟩ | ⟨hnot, x, hx, hack, hlost⟩
    · refine Or.inl ⟨hor, hheld.cons (fun x hx _ => hx) (fun x hx => hx) hoff
        (fun k hk => acked_of_ne hopkey (hdkey ▸ hk) _ _ _) fun v hv => ?_⟩
      have hwrite : bop = .write → e = .ok () ∧ d = data := by
        rintro rfl
        cases hnew
        exact ⟨rfl, rfl⟩
      rw [hdkey] at hv ⊢
      refine holdsValue_own haccess hdkey (fun hw => (hwrite hw).2) (fun hread hv => ?_) hv fun hw => (hwrite hw).1
      rcases hheld data.key v hv with ⟨x, hx, hxkey, -⟩ | ⟨-, hdb⟩
      · exact absurd hxkey (hsub x hx)
      · have hcell : cacheFetch b.toBackend (writeBackAll b.toBackend (evicted n entries) inst) data = (e, d, inst') := by
          rcases hread with rfl | rfl <;> exact hnew
        obtain ⟨-, hval, hstate, hview⟩ := cacheFetch_held hb hfetch hdb hcell
        exact ⟨hval, Or.inr ⟨hstate, hview ▸ hdb⟩⟩
    · refine Or.inr ⟨hnot, x.key, x.val, ?_, hlost.cons ?_ (fun x hx => hx) (hoff _ ?_)⟩
      · rw [acked_of_ne hopkey (hmiss x ((hparts.mem x).2 (Or.inr hx)))]
        exact hack
      · exact hdkey ▸ hmiss x ((hparts.mem x).2 (Or.inr hx))
      · exact hdkey ▸ hmiss x ((hparts.mem x).2 (Or.inr hx))
  · have hleave : leavingOf n entries (.cache (.plain op)) = [] := by
      unfold leavingOf
      rw [hopkey]
      exact if_neg fun hall => hall found hmem hkey
    rw [hleave]
    refine Or.inl ⟨Or.inl trivial, ?_⟩
    have hdkey : d.key = data.key := (lruKey_head hr).1
    refine h.cons (fun x hx hne => List.mem_filter.2 ⟨hx, by simpa [← hdkey] using hne⟩)
      (fun x hx => (List.mem_filter.1 hx).1) (hdkey ▸ foundData_off hb hfound) (fun k hk => ?_) fun v hv => ?_
    · rw [acked_of_ne hopkey (hdkey ▸ hk), unreported_nil]
    · have hwrite : bop = .write → e = .ok () ∧ d = data := by
        rintro rfl
        cases hfound
        exact ⟨rfl, rfl⟩
      rw [hdkey] at hv ⊢
      refine holdsValue_own haccess hdkey (fun hw => (hwrite hw).2) (fun hread hv => ?_) hv fun hw => (hwrite hw).1
      rw [unreported_nil] at hv
      have hsame : d = found ∧ inst' = inst := by
        rcases hread with rfl | rfl <;> (cases hfound; exact ⟨rfl, rfl⟩)
      rcases h data.key v hv with ⟨x, hx, hxkey, hval, hstate⟩ | ⟨hout, -⟩
      · rw [hsame.1, hsame.2, hunique found hmem x hx (hkey.trans hxkey.symm)]
        exact ⟨hval, hstate⟩
      · exact absurd hkey (hout found hmem)

theorem CacheOp.purges_of_afterPurge {op : CacheOp} {s s' : σ} {r : Reply} (h : op.afterPurge b s = some (r, s')) :
    (CounterOp.cache op).key = none ∧ (CounterOp.cache op).purges = true ∧
      (∀ acked leave, (CounterOp.cache op).acked acked leave r = unreported acked leave r) ∧
      ((CounterOp.cache op).RealError b s ↔ r.isOk = false) := by
  have hreal : (∃ e s', op.afterPurge b s = some (.error e, s')) ↔ r.isOk = false := by
    rw [h]
    cases r with
    | ok v => simp [Except.isOk, Except.toBool]
    | error e => simp [Except.isOk, Except.toBool]
  cases op with
  | plain op =>
    cases op with
    | sync => exact ⟨rfl, rfl, fun _ _ => rfl, hreal⟩
    | store | fetch | exist | delete => cases h
  | fetchCompressed | storeCompressed => cases h
  | first | next | fromKey | close => exact ⟨rfl, rfl, fun _ _ => rfl, hreal⟩

theorem AckedHeld.does (hb : b.IsTable view) (hfetch : ∀ s k e, (b.fetch s k).1 = .error e → e = .notFound)
    (hdistinct : entries.Pairwise fun a c => a.key ≠ c.key) (h : AckedHeld acked entries (view inst))
    {op : CacheOp} {r : Reply} (hdoes : op.Does b encode decode n entries inst r entries' inst') :
    (CounterOp.cache op).Outcome b view acked (leavingOf n entries (.cache op)) inst r entries' inst' := by
  cases hdoes with
  | key op data bop haccess e d entries' inst' hr => exact h.key hb hfetch hdistinct haccess hr
  | fetchCompressed key =>
    refine Or.inl ⟨Or.inl trivial, ?_⟩
    rw [hb.fetch_view]
    show AckedHeld (unreported acked [] _) entries _
    rw [unreported_nil]
    exact h
  | storeCompressed key bits =>
    refine Or.inl ⟨Or.inl trivial, fun k v hk => ?_⟩
    have hk : (if k = key then some none else none).getD (unreported acked [] _ k) = some v := hk
    rw [unreported_nil] at hk
    by_cases hkey : k = key
    · rw [if_pos hkey] at hk
      cases hk
    · rw [if_neg hkey] at hk
      have hsame := hb.store_off inst key (encode bits) k hkey
      rcases h k v hk with ⟨x, hx, hxkey, hval, hstate⟩ | ⟨hout, hdb⟩
      · exact Or.inl ⟨x, hx, hxkey, hval, hsame ▸ hstate⟩
      · exact Or.inr ⟨hout, hsame ▸ hdb⟩
  | purge op r inst' hr =>
    obtain ⟨hkey, hpurges, hacked, hreal⟩ := CacheOp.purges_of_afterPurge hr
    have hleave : leavingOf n entries (.cache op) = entries := by
      unfold leavingOf
      rw [hkey]
      exact if_pos hpurges
    have hparts : Parts entries [] entries :=
      ⟨fun x => by simp, fun x hx y hy => List.inj_on_of_nodup_map (List.pairwise_map.2 hdistinct) hx hy, nofun⟩
    rw [hleave]
    unfold CounterOp.Outcome CounterOp.WritesBack
    rw [hreal, hacked, CacheOp.afterPurge_view hb hr]
    rcases h.writeBack hb hparts hdistinct r with ⟨hor, hheld⟩ | ⟨hnot, x, -, hack, hlost⟩
    · exact Or.inl ⟨hor, hheld⟩
    · exact Or.inr ⟨hnot, x.key, x.val, hack, hlost⟩

end

/-! ## Runs -/

section

variable {σ : Type} {b : CursorBackend σ} {view : σ → FlatDb} {encode decode : Bytes → Bytes}
  {acked : Bytes → Option Bytes} {me me' : BackendCaching σ} {l : List Addr} {k v : Bytes}

/-- What a fetch answers for a value that is held, and for one that is lost. -/
theorem HoldsValue.fetch (hb : b.IsTable view) (hfetch : ∀ s k e, (b.fetch s k).1 = .error e → e = .notFound)
    (hok : me.cache.Ok l) (h : HoldsValue (me.cache.entries l) (view me.inst) k v) :
    ∃ me', backendCachingFetch b.toBackend me k = some (.ok v, me') := by
  rcases hr : lruKey b.toBackend me.cache.maxcache (me.cache.entries l) me.inst ⟨k, [], .undef⟩ .read with
    ⟨e, d, entries', inst'⟩
  obtain ⟨c, l', heq, -⟩ := backendCachingFetch_lru hok k hr
  have hd : e = .ok () ∧ d.val = v ∧ d.state ≠ .notFound := by
    rcases lruKey_cases hr with ⟨hmiss, hnew, -⟩ | ⟨found, hmem, hkey, -, hfound, -⟩
    · rcases h with ⟨x, hx, hxkey, -⟩ | ⟨hout, hdb⟩
      · exact absurd hxkey (hmiss x hx)
      · have hoff : rdfstoreFlatStoreFetch (view (writeBackAll b.toBackend
            (evicted me.cache.maxcache (me.cache.entries l)) me.inst)) k = some v := by
          rw [writeBackAll_off hb fun x hx _ => ?_]
          · exact hdb
          · refine hout x ?_
            rw [← kept_append_evicted me.cache.maxcache (me.cache.entries l)]
            exact List.mem_append_right _ hx
        have hcell : cacheFetch b.toBackend _ ⟨k, [], .undef⟩ = (e, d, inst') := hnew
        obtain ⟨he, hval, hstate, -⟩ := cacheFetch_held hb hfetch hoff hcell
        exact ⟨he, hval, by rw [hstate]; nofun⟩
    · cases hfound
      rcases h with ⟨x, hx, hxkey, hval, hstate⟩ | ⟨hout, -⟩
      · have hsame : d = x := List.inj_on_of_nodup_map
          (List.pairwise_map.2 (List.pairwise_map.2 hok.distinct)) hmem hx (hkey.trans hxkey.symm)
        subst hsame
        refine ⟨rfl, hval, ?_⟩
        rcases hstate with hs | ⟨hs, -⟩
        · rw [hs]; nofun
        · rw [hs]; nofun
      · exact absurd hkey (hout d hmem)
  refine ⟨⟨c, inst'⟩, ?_⟩
  rw [heq, hd.1]
  show some ((if d.state = .notFound then _ else Except.ok d.val), _) = _
  rw [if_neg hd.2.2, hd.2.1]

theorem LosesValue.fetch (hb : b.IsTable view) (hok : me.cache.Ok l) (h : LosesValue (me.cache.entries l) (view me.inst) k v) :
    ¬ ∃ me', backendCachingFetch b.toBackend me k = some (.ok v, me') := by
  rintro ⟨me', heq⟩
  rcases hr : lruKey b.toBackend me.cache.maxcache (me.cache.entries l) me.inst ⟨k, [], .undef⟩ .read with
    ⟨e, d, entries', inst'⟩
  obtain ⟨c, l', heq', -⟩ := backendCachingFetch_lru hok k hr
  rw [heq'] at heq
  rcases lruKey_cases hr with ⟨-, hnew, -⟩ | ⟨found, hmem, hkey, -⟩
  · have hview := hb.fetch_view (writeBackAll b.toBackend (evicted me.cache.maxcache (me.cache.entries l)) me.inst) k
    have hout : ∀ x ∈ evicted me.cache.maxcache (me.cache.entries l), x.key ≠ k := fun x hx => h.1 x (by
      rw [← kept_append_evicted me.cache.maxcache (me.cache.entries l)]
      exact List.mem_append_right _ hx)
    have hcell : cacheFetch b.toBackend (writeBackAll b.toBackend
        (evicted me.cache.maxcache (me.cache.entries l)) me.inst) ⟨k, [], .undef⟩ = (e, d, inst') := hnew
    unfold cacheFetch at hcell
    split at hcell
    · next val s hs =>
      have hval := hb.fetch_ok _ k val (congrArg Prod.fst hs)
      rw [writeBackAll_off hb fun x hx _ => hout x hx] at hval
      cases hcell
      cases heq
      exact h.2 hval
    · cases hcell
      cases heq
    · cases hcell
      cases heq
  · exact h.1 found hmem hkey

/-- The cache is one, and every value that counts is held. -/
def SafeCache (view : σ → FlatDb) (acked : Bytes → Option Bytes) (me : BackendCaching σ) : Prop :=
  ∃ l, me.cache.Ok l ∧ AckedHeld acked (me.cache.entries l) (view me.inst)

/-- One value that counts is lost. -/
def LosesSome (view : σ → FlatDb) (acked : Bytes → Option Bytes) (me : BackendCaching σ) : Prop :=
  ∃ l, me.cache.Ok l ∧ ∃ k v, acked k = some v ∧ LosesValue (me.cache.entries l) (view me.inst) k v

theorem CounterOp.Outcome.machine {op : CounterOp} {r : Reply} {leave : List CacheData} {inst : σ}
    (hok : me'.cache.Ok l) (h : op.Outcome b view acked leave inst r (me'.cache.entries l) me'.inst) :
    (op.WritesBack b view acked leave inst ∧ SafeCache view (op.acked acked leave r) me') ∨
      ¬ op.WritesBack b view acked leave inst ∧ LosesSome view (op.acked acked leave r) me' := by
  rcases h with ⟨hback, hheld⟩ | ⟨hnot, hlost⟩
  · exact Or.inl ⟨hback, l, hok, hheld⟩
  · exact Or.inr ⟨hnot, l, hok, hlost⟩

theorem CachingStore.Ok.distinct_entries {c : CachingStore} (h : c.Ok l) :
    (c.entries l).Pairwise fun a d => a.key ≠ d.key :=
  List.pairwise_map.2 h.distinct

/-- A counter is fetched, which puts its entry at the head, and stored there. -/
theorem AckedHeld.count (hb : b.IsTable view) (hfetch : ∀ s k e, (b.fetch s k).1 = .error e → e = .notFound)
    (hok : me.cache.Ok l) (h : AckedHeld acked (me.cache.entries l) (view me.inst)) {op : CounterOp} {key : Bytes}
    (hop : op = .inc key ∨ op = .dec key) {step : Nat → Nat} {r : Except FlatStoreError Bytes}
    (hcount : backendCachingCount b.toBackend step me key = some (r, me')) :
    ∃ l', me'.cache.Ok l' ∧ op.Outcome b view acked (leavingOf me.cache.maxcache (me.cache.entries l) op) me.inst
      (r.map some) (me'.cache.entries l') me'.inst := by
  rcases hr : lruKey b.toBackend me.cache.maxcache (me.cache.entries l) me.inst ⟨key, [], .undef⟩ .read with
    ⟨e, d, entries₁, inst₁⟩
  obtain ⟨c, l₁, heq, hok₁, hentries, hmax⟩ := backendCachingFetch_lru hok key hr
  obtain ⟨hdkey, rest, hrest⟩ := lruKey_head hr
  have haccess : (StoreOp.fetch key).access = some (⟨key, [], .undef⟩, .read) := rfl
  have hread := h.key hb hfetch hok.distinct_entries haccess hr
  -- up to here a counter does what a fetch does
  have hsame : op.key = some key ∧ leavingOf me.cache.maxcache (me.cache.entries l) op =
      leavingOf me.cache.maxcache (me.cache.entries l) (.cache (.plain (.fetch key))) ∧
      (∀ leave s, op.WritesBack b view acked leave s ↔
        (CounterOp.cache (.plain (.fetch key))).WritesBack b view acked leave s) ∧
      (∀ leave err, op.acked acked leave (.error err) = unreported acked leave (.error err)) ∧
      ∀ leave v, op.acked acked leave (.ok (some v)) key = some v := by
    rcases hop with rfl | rfl <;>
      exact ⟨rfl, rfl, fun _ _ => Iff.rfl, fun _ _ => rfl, fun leave v => by
        simp only [CounterOp.acked, CounterOp.ownAck, if_true, Option.getD_some]⟩
  obtain ⟨hkey, hleave, hback, hfailed, hown⟩ := hsame
  have hfail : ∀ err, StoreOp.answer (.fetch key) e d = .error err → r = .error err ∧ me' = ⟨c, inst₁⟩ →
      ∃ l', me'.cache.Ok l' ∧ op.Outcome b view acked (leavingOf me.cache.maxcache (me.cache.entries l) op) me.inst
        (r.map some) (me'.cache.entries l') me'.inst := by
    rintro err herr ⟨rfl, rfl⟩
    refine ⟨l₁, hok₁, ?_⟩
    rw [herr, ← hentries] at hread
    unfold CounterOp.Outcome at hread ⊢
    simp only [hleave, hback, Except.map, hfailed]
    exact hread
  cases e with
  | error err =>
    rw [backendCachingCount_error heq] at hcount
    cases hcount
    exact hfail err rfl ⟨rfl, rfl⟩
  | ok u =>
    simp only [Except.bind] at heq
    by_cases hnot : d.state = .notFound
    · rw [if_pos hnot] at heq
      rw [backendCachingCount_error heq] at hcount
      cases hcount
      refine hfail .notFound ?_ ⟨rfl, rfl⟩
      exact if_pos hnot
    · rw [if_neg hnot] at heq
      rw [backendCachingCount_ok heq] at hcount
      have hanswer : StoreOp.answer (.fetch key) (.ok u) d = .ok (some d.val) := if_neg hnot
      rw [hanswer] at hread
      generalize packInt (step (unpackInt d.val)) ++ d.val.drop 4 = newValue at hcount
      rcases hr₂ : lruKey b.toBackend c.maxcache (c.entries l₁) inst₁ ⟨key, newValue, .changed⟩ .write with
        ⟨e₂, d₂, entries₂, inst₂⟩
      obtain ⟨-, c₂, l₂, hstore, hok₂, hentries₂, -⟩ := @backendCachingStore_lru σ b.toBackend ⟨c, inst₁⟩ l₁ d₂ e₂ hok₁
        key newValue _ _ hr₂
      have hmem : d ∈ c.entries l₁ := by
        rw [hentries, hrest]
        exact List.mem_cons_self
      split at hcount
      · cases hcount
      · rw [hstore] at hcount
        cases hcount
        refine ⟨l₂, hok₂, ?_⟩
        rcases lruKey_cases hr₂ with ⟨hmiss, -⟩ | ⟨found, -, -, -, hfound, hlist⟩
        · exact absurd hdkey (hmiss d hmem)
        · cases hfound
          have hrest : ∀ x ∈ c.entries l₁, x.key ≠ key → x ∈ (c.entries l₁).filter (·.key ≠ key) := fun x hx hne =>
            List.mem_filter.2 ⟨hx, by simpa using hne⟩
          have hsub : ∀ x ∈ (c.entries l₁).filter (·.key ≠ key), x ∈ c.entries l₁ := fun x hx => (List.mem_filter.1 hx).1
          have hacked : ∀ leave k, k ≠ key → op.acked acked leave (.ok (some newValue)) k =
              (CounterOp.cache (.plain (.fetch key))).acked acked leave (.ok (some d.val)) k := fun leave k hk =>
            acked_of_ne hkey hk _ _ _
          rw [← hentries] at hread
          unfold CounterOp.Outcome at hread ⊢
          simp only [hleave, hback, hentries₂, hlist]
          rcases hread with ⟨hw, hheld⟩ | ⟨hnw, k, v, hack, hlost⟩
          · refine Or.inl ⟨hw, hheld.cons hrest hsub (SameOff.refl _ _) (fun k hk => hacked _ k hk) fun v hv => ?_⟩
            refine Or.inl ⟨_, List.mem_cons_self, rfl, ?_, Or.inl rfl⟩
            exact Option.some.inj ((hown _ newValue).symm.trans hv)
          · have hk : k ≠ key := fun hk => hlost.1 d hmem (hk ▸ hdkey)
            exact Or.inr ⟨hnw, k, v, (hacked _ k hk).trans hack, hlost.cons hk hsub rfl⟩

theorem SafeCache.step (hb : b.IsTable view) (hfetch : ∀ s k e, (b.fetch s k).1 = .error e → e = .notFound)
    (h : SafeCache view acked me) {op : CounterOp} {r : Reply} (hstep : op.step b encode decode me = some (r, me')) :
    (op.WritesBack b view acked (me.cache.leaving op) me.inst ∧
        SafeCache view (op.acked acked (me.cache.leaving op) r) me') ∨
      ¬ op.WritesBack b view acked (me.cache.leaving op) me.inst ∧
        LosesSome view (op.acked acked (me.cache.leaving op) r) me' := by
  obtain ⟨l, hok, hheld⟩ := h
  rw [hok.leaving op]
  cases op with
  | cache op =>
    obtain ⟨r', me₁, l₁, hstep', hok₁, -, hdoes⟩ := op.spec b encode decode hok
    have hstep : op.step b encode decode me = some (r, me') := hstep
    rw [hstep'] at hstep
    cases hstep
    exact (hheld.does hb hfetch hok.distinct_entries hdoes).machine hok₁
  | inc key =>
    obtain ⟨⟨r₁, me₁⟩, hcount, heq⟩ := Option.map_eq_some_iff.1 hstep
    cases heq
    obtain ⟨l₁, hok₁, hout⟩ := hheld.count hb hfetch hok (Or.inl rfl) hcount
    exact hout.machine hok₁
  | dec key =>
    obtain ⟨⟨r₁, me₁⟩, hcount, heq⟩ := Option.map_eq_some_iff.1 hstep
    cases heq
    obtain ⟨l₁, hok₁, hout⟩ := hheld.count hb hfetch hok (Or.inr rfl) hcount
    exact hout.machine hok₁

theorem SafeCache.kept (hb : b.IsTable view) (hfetch : ∀ s k e, (b.fetch s k).1 = .error e → e = .notFound)
    (h : SafeCache view acked me) : Kept b acked me := by
  obtain ⟨l, hok, hheld⟩ := h
  exact fun k v hk => (hheld k v hk).fetch hb hfetch hok

theorem LosesSome.not_kept (hb : b.IsTable view) (h : LosesSome view acked me) : ¬ Kept b acked me := by
  obtain ⟨l, hok, k, v, hk, hlost⟩ := h
  exact fun hkept => hlost.fetch hb hok (hkept k v hk)

theorem KeptRun.kept {ops : List CounterOp} (h : KeptRun b encode decode ops acked me) : Kept b acked me := by
  cases ops with
  | nil => exact h
  | cons op ops => exact h.1

theorem SafeCache.run_iff (hb : b.IsTable view) (hfetch : ∀ s k e, (b.fetch s k).1 = .error e → e = .notFound)
    (h : SafeCache view acked me) (ops : List CounterOp) :
    KeptRun b encode decode ops acked me ↔ WritesBackRun b encode decode view ops acked me := by
  induction ops generalizing acked me with
  | nil => exact iff_of_true (h.kept hb hfetch) trivial
  | cons op ops ih =>
    unfold KeptRun WritesBackRun
    rw [and_iff_right (h.kept hb hfetch)]
    refine forall_congr' fun r => forall_congr' fun me' => forall_congr' fun hstep => ?_
    rcases h.step hb hfetch hstep with ⟨hback, hsafe⟩ | ⟨hnot, hloses⟩
    · rw [ih hsafe, and_iff_right hback]
    · exact iff_of_false (fun hrun => hloses.not_kept hb hrun.kept) fun hc => hnot hc.1

end

/-- In the runs from an empty cache over a real store whose writes may fail, every acknowledged value can
be fetched at every point exactly when every changed entry that is written back is accepted or the operation
that writes it back fails. -/
theorem keptRun_iff {σ : Type} {b : CursorBackend σ} {view : σ → FlatDb} (hb : b.IsTable view)
    (hfetch : ∀ s k e, (b.fetch s k).1 = .error e → e = .notFound) (encode decode : Bytes → Bytes) (n : Nat)
    (inst : σ) (ops : List CounterOp) :
    KeptRun b encode decode ops (fun _ => none) (backendCachingOpen n inst) ↔
      WritesBackRun b encode decode view ops (fun _ => none) (backendCachingOpen n inst) :=
  SafeCache.run_iff hb hfetch ⟨[], initCachingstore_ok n, fun _ _ hk => by cases hk⟩ ops

/-- A value stays where it is as long as nothing makes it leave. -/
theorem keptRun_store : KeptRun failingWrites id id [.cache (.plain (.store [1] [7]))] (fun _ => none)
    (backendCachingOpen 1 (rdfstoreFlatStoreStore ∅ [2] [8], [true])) :=
  (keptRun_iff failingWrites_isTable failingWrites_fetch id id 1 _ _).2
    fun _ _ _ => ⟨Or.inl trivial, trivial⟩

/-- A value is stored with success, another key is fetched with success, and the value is gone. -/
theorem storedValue_lost : ∃ me₁ me₂ me₃,
    backendCachingStore failingWrites.toBackend
      (backendCachingOpen 1 (rdfstoreFlatStoreStore ∅ [2] [8], [true])) [1] [7] = some (.ok (), me₁) ∧
    backendCachingFetch failingWrites.toBackend me₁ [2] = some (.ok [8], me₂) ∧
    backendCachingFetch failingWrites.toBackend me₂ [1] = some (.error .notFound, me₃) ∧
    ¬ KeptRun failingWrites id id [.cache (.plain (.store [1] [7])), .cache (.plain (.fetch [2]))] (fun _ => none)
      (backendCachingOpen 1 (rdfstoreFlatStoreStore ∅ [2] [8], [true])) := by
  refine ⟨_, _, _, rfl, rfl, rfl, fun h => ?_⟩
  obtain ⟨me', hfetch⟩ := ((h.2 _ _ rfl).2 _ _ rfl) [1] [7] rfl
  have hnone : some ((.ok [7] : Except FlatStoreError Bytes), me') = some (.error .notFound, _) := hfetch.symm.trans rfl
  cases hnone

end RdfStore
