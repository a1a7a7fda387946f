import Mathlib.Data.List.Infix
import Mathlib.Data.List.TakeWhile
import Mathlib.Tactic.Common

/-!
# Run-length codes

A list is cut into tokens from left to right: a run where the code asks for one
(`isRun c n`, of the whole run that starts here), else the element joins the open
literal, which holds `cap` elements at most.

    (tokens isRun cap lit l).flatMap content = lit ++ l         (contents_tokens)
    a run of `n` that the code asks for is in a token            (exists_run_tokens)
-/

namespace RunLength

variable {α : Type}

inductive Token (α : Type)
  | lit (l : List α)
  | run (c : α) (n : Nat)

def Token.content : Token α → List α
  | .lit l => l
  | .run c n => List.replicate n c

/-- The token of an open literal. -/
def close : List α → List (Token α)
  | [] => []
  | l => [.lit l]

theorem contents_close (l : List α) : (close l).flatMap Token.content = l := by
  cases l with
  | nil => rfl
  | cons c l => exact List.append_nil _

theorem not_run_mem_close (l : List α) (c : α) (n : Nat) : Token.run c n ∉ close l := by
  cases l with
  | nil => exact List.not_mem_nil
  | cons a l => simp [close]

theorem lit_mem_close {l l' : List α} (h : Token.lit l' ∈ close l) : l' = l ∧ l ≠ [] := by
  cases l with
  | nil => cases h
  | cons a l =>
    cases List.mem_singleton.1 h
    exact ⟨rfl, List.cons_ne_nil a l⟩

/-! ## Tokens -/

section

variable [DecidableEq α]

/-- How often `c` comes at the start of the list. -/
def leading (c : α) (l : List α) : Nat := (l.takeWhile (· = c)).length

theorem leading_cons_self (c : α) (l : List α) : leading c (c :: l) = leading c l + 1 := by
  simp [leading]

theorem leading_cons_of_ne {c a : α} (h : a ≠ c) (l : List α) : leading c (a :: l) = 0 := by
  simp [leading, h]

/-- The list is its leading run and what comes after it. -/
theorem replicate_leading_append (c : α) (l : List α) :
    List.replicate (leading c l) c ++ l.drop (leading c l) = l := by
  induction l with
  | nil => rfl
  | cons a l ih =>
    by_cases h : a = c
    · subst h
      rw [leading_cons_self, List.replicate_succ, List.cons_append, List.drop_succ_cons, ih]
    · rw [leading_cons_of_ne h]
      rfl

theorem le_leading_of_prefix {c : α} {l : List α} {n : Nat} (h : List.replicate n c <+: l) : n ≤ leading c l := by
  induction n generalizing l with
  | zero => exact Nat.zero_le _
  | succ n ih =>
    obtain ⟨t, rfl⟩ := h
    rw [List.replicate_succ, List.cons_append, leading_cons_self]
    exact Nat.succ_le_succ (ih (List.prefix_append _ _))

theorem replicate_prefix_cons {c a : α} {n : Nat} {l : List α} (hn : 0 < n) (h : List.replicate n c <+: a :: l) :
    a = c ∧ n ≤ leading a l + 1 := by
  have hle := le_leading_of_prefix h
  obtain ⟨m, rfl⟩ := Nat.exists_eq_succ_of_ne_zero hn.ne'
  obtain ⟨t, ht⟩ := h
  cases ht
  rw [leading_cons_self] at hle
  exact ⟨rfl, hle⟩

/-- A block of equal elements in a list with a leading run is in that run or behind it. -/
theorem replicate_infix {c : α} (a : α) {n : Nat} {l : List α} (hn : 0 < n) (h : List.replicate n c <:+: l) :
    (a = c ∧ n ≤ leading a l) ∨ List.replicate n c <:+: l.drop (leading a l) := by
  induction l with
  | nil => exact Or.inr h
  | cons b l ih =>
    by_cases hb : b = a
    · subst hb
      rw [leading_cons_self, List.drop_succ_cons]
      rcases List.infix_cons_iff.1 h with hpre | hin
      · exact Or.inl (replicate_prefix_cons hn hpre)
      · exact (ih hin).imp (fun hc => ⟨hc.1, hc.2.trans (Nat.le_succ _)⟩) id
    · rw [leading_cons_of_ne hb]
      exact Or.inr h

variable (isRun : α → Nat → Bool) (cap : Nat)

/-- The tokens of a list whose elements before it, in the open literal `lit`, are not written yet. -/
def tokens (lit : List α) : List α → List (Token α)
  | [] => close lit
  | c :: l =>
    if isRun c (leading c l + 1) then close lit ++ .run c (leading c l + 1) :: tokens [] (l.drop (leading c l))
    else if lit.length + 1 = cap then .lit (lit ++ [c]) :: tokens [] l
    else tokens (lit ++ [c]) l
termination_by l => l.length
decreasing_by
  · simp only [List.length_drop, List.length_cons]
    omega
  · simp
  · simp

variable {isRun cap} {lit l : List α} {c : α}

theorem tokens_run (h : isRun c (leading c l + 1) = true) : tokens isRun cap lit (c :: l) =
    close lit ++ .run c (leading c l + 1) :: tokens isRun cap [] (l.drop (leading c l)) := by
  rw [tokens, if_pos h]

theorem tokens_full (h : isRun c (leading c l + 1) = false) (hcap : lit.length + 1 = cap) :
    tokens isRun cap lit (c :: l) = .lit (lit ++ [c]) :: tokens isRun cap [] l := by
  rw [tokens, if_neg (by simp [h]), if_pos hcap]

theorem tokens_lit (h : isRun c (leading c l + 1) = false) (hcap : lit.length + 1 ≠ cap) :
    tokens isRun cap lit (c :: l) = tokens isRun cap (lit ++ [c]) l := by
  rw [tokens, if_neg (by simp [h]), if_neg hcap]

@[simp] theorem tokens_nil : tokens isRun cap lit [] = close lit := by rw [tokens]

variable (isRun cap)

/-- The tokens lose nothing. -/
theorem contents_tokens (lit l : List α) : (tokens isRun cap lit l).flatMap Token.content = lit ++ l := by
  fun_induction tokens isRun cap lit l with
  | case1 lit => rw [contents_close, List.append_nil]
  | case2 lit c l h ih =>
    rw [List.flatMap_append, contents_close, List.flatMap_cons, ih]
    show lit ++ (List.replicate (leading c l + 1) c ++ _) = _
    rw [List.replicate_succ, List.cons_append, List.nil_append, replicate_leading_append]
  | case3 lit c l h hcap ih =>
    rw [List.flatMap_cons, ih]
    simp [Token.content]
  | case4 lit c l h hcap ih => rw [ih, List.append_assoc, List.singleton_append]

/-- Literals are not empty and hold `cap` elements at most. -/
theorem length_lit_of_mem {lit l : List α} (hlit : lit.length < cap) {l' : List α}
    (h : Token.lit l' ∈ tokens isRun cap lit l) : 0 < l'.length ∧ l'.length ≤ cap := by
  fun_induction tokens isRun cap lit l with
  | case1 lit =>
    obtain ⟨rfl, hne⟩ := lit_mem_close h
    exact ⟨List.length_pos_iff.2 hne, hlit.le⟩
  | case2 lit c l hrun ih =>
    rcases List.mem_append.1 h with h | h
    · obtain ⟨rfl, hne⟩ := lit_mem_close h
      exact ⟨List.length_pos_iff.2 hne, hlit.le⟩
    · rcases List.mem_cons.1 h with h | h
      · cases h
      · exact ih (Nat.zero_lt_of_lt hlit) h
  | case3 lit c l hrun hcap ih =>
    rcases List.mem_cons.1 h with h | h
    · cases h
      rw [List.length_append, List.length_singleton]
      omega
    · exact ih (Nat.zero_lt_of_lt hlit) h
  | case4 lit c l hrun hcap ih =>
    refine ih ?_ h
    rw [List.length_append, List.length_singleton]
    omega

/-- Runs are runs that the code asks for. -/
theorem isRun_of_mem {lit l : List α} {c : α} {n : Nat} (h : Token.run c n ∈ tokens isRun cap lit l) :
    isRun c n = true := by
  fun_induction tokens isRun cap lit l with
  | case1 lit => exact absurd h (not_run_mem_close lit c n)
  | case2 lit a l hrun ih =>
    rcases List.mem_append.1 h with h | h
    · exact absurd h (not_run_mem_close lit c n)
    · rcases List.mem_cons.1 h with h | h
      · cases h
        exact hrun
      · exact ih h
  | case3 lit a l hrun hcap ih =>
    rcases List.mem_cons.1 h with h | h
    · cases h
    · exact ih h
  | case4 lit a l hrun hcap ih => exact ih h

theorem run_pos_of_mem {lit l : List α} {c : α} {n : Nat} (h : Token.run c n ∈ tokens isRun cap lit l) : 0 < n := by
  fun_induction tokens isRun cap lit l with
  | case1 lit => exact absurd h (not_run_mem_close lit c n)
  | case2 lit a l hrun ih =>
    rcases List.mem_append.1 h with h | h
    · exact absurd h (not_run_mem_close lit c n)
    · rcases List.mem_cons.1 h with h | h
      · cases h
        exact Nat.succ_pos _
      · exact ih h
  | case3 lit a l hrun hcap ih =>
    rcases List.mem_cons.1 h with h | h
    · cases h
    · exact ih h
  | case4 lit a l hrun hcap ih => exact ih h

/-- A block of equal elements that is a run for the code is in the token of a run. -/
theorem exists_run_tokens {lit l : List α} {c : α} {n : Nat} (hn : 0 < n) (hrun : ∀ m, n ≤ m → isRun c m = true)
    (h : List.replicate n c <:+: l) : ∃ m, n ≤ m ∧ Token.run c m ∈ tokens isRun cap lit l := by
  fun_induction tokens isRun cap lit l with
  | case1 lit =>
    have hnil := List.eq_nil_of_infix_nil h
    rw [List.replicate_eq_nil_iff] at hnil
    omega
  | case2 lit a l hasked ih =>
    rcases replicate_infix a hn h with ⟨rfl, hle⟩ | hin
    · rw [leading_cons_self] at hle
      exact ⟨_, hle, List.mem_append_right _ List.mem_cons_self⟩
    · rw [leading_cons_self, List.drop_succ_cons] at hin
      obtain ⟨m, hm, hmem⟩ := ih hin
      exact ⟨m, hm, List.mem_append_right _ (List.mem_cons_of_mem _ hmem)⟩
  | case3 lit a l hasked hcap ih =>
    rcases List.infix_cons_iff.1 h with hpre | hin
    · obtain ⟨rfl, hle⟩ := replicate_prefix_cons hn hpre
      exact absurd (hrun _ hle) hasked
    · obtain ⟨m, hm, hmem⟩ := ih hin
      exact ⟨m, hm, List.mem_cons_of_mem _ hmem⟩
  | case4 lit a l hasked hcap ih =>
    rcases List.infix_cons_iff.1 h with hpre | hin
    · obtain ⟨rfl, hle⟩ := replicate_prefix_cons hn hpre
      exact absurd (hrun _ hle) hasked
    · exact ih hin

/-- The elements of a run stand in the list. -/
theorem replicate_infix_of_mem {l : List α} {c : α} {n m : Nat} (hm : n ≤ m)
    (hmem : Token.run c m ∈ tokens isRun cap [] l) : List.replicate n c <:+: l := by
  have hin : List.replicate m c <:+: (tokens isRun cap [] l).flatMap Token.content :=
    List.infix_of_mem_flatten (List.mem_map_of_mem hmem)
  rw [contents_tokens, List.nil_append] at hin
  have hle : List.replicate n c <+: List.replicate m c := by
    rw [← Nat.add_sub_cancel' hm, ← List.replicate_append_replicate]
    exact List.prefix_append _ _
  exact hle.isInfix.trans hin

/-- The blocks of so many equal elements are the runs of so many. -/
theorem run_mem_tokens_iff {l : List α} {n : Nat} (hn : 0 < n) (hrun : ∀ c m, n ≤ m → isRun c m = true) :
    (∃ c m, n ≤ m ∧ Token.run c m ∈ tokens isRun cap [] l) ↔ ∃ c, List.replicate n c <:+: l := by
  constructor
  · rintro ⟨c, m, hm, hmem⟩
    exact ⟨c, replicate_infix_of_mem isRun cap hm hmem⟩
  · rintro ⟨c, h⟩
    obtain ⟨m, hm, hmem⟩ := exists_run_tokens isRun cap hn (hrun c) h
    exact ⟨c, m, hm, hmem⟩

variable {isRun cap}

theorem leading_replicate (c : α) (n : Nat) : leading c (List.replicate n c) = n := by
  induction n with
  | zero => rfl
  | succ n ih => rw [List.replicate_succ, leading_cons_self, ih]

theorem tokens_replicate {c : α} {n : Nat} (h : isRun c (n + 1) = true) :
    tokens isRun cap [] (List.replicate (n + 1) c) = [.run c (n + 1)] := by
  have hlead := leading_replicate c n
  rw [List.replicate_succ, tokens_run (by rw [hlead]; exact h), hlead, List.drop_eq_nil_of_le (by simp), tokens_nil]
  rfl

end

/-! ## Reading tokens -/

theorem length_flatMap_le {β γ : Type} {f g : β → List γ} {ts : List β}
    (h : ∀ t ∈ ts, (f t).length ≤ (g t).length) : (ts.flatMap f).length ≤ (ts.flatMap g).length := by
  induction ts with
  | nil => exact Nat.le_refl _
  | cons t ts ih =>
    rw [List.flatMap_cons, List.flatMap_cons, List.length_append, List.length_append]
    exact Nat.add_le_add (h t List.mem_cons_self) (ih fun t ht => h t (List.mem_cons_of_mem _ ht))

/-- What is nowhere longer is the same only if it is the same everywhere. -/
theorem flatMap_eq_iff {β γ : Type} {f g : β → List γ} {ts : List β}
    (h : ∀ t ∈ ts, (f t).length ≤ (g t).length) : ts.flatMap f = ts.flatMap g ↔ ∀ t ∈ ts, f t = g t := by
  induction ts with
  | nil => exact iff_of_true rfl nofun
  | cons t ts ih =>
    have htail : ∀ t ∈ ts, (f t).length ≤ (g t).length := fun t ht => h t (List.mem_cons_of_mem _ ht)
    rw [List.flatMap_cons, List.flatMap_cons, List.forall_mem_cons, ← ih htail]
    constructor
    · intro heq
      refine List.append_inj heq ?_
      have hlen := congrArg List.length heq
      rw [List.length_append, List.length_append] at hlen
      have hhead := h t List.mem_cons_self
      have hrest := length_flatMap_le htail
      omega
    · rintro ⟨hhead, hrest⟩
      rw [hhead, hrest]

/-! ## Reading in passes -/

section

variable (pass : List α → Option (List α × List α))

/-- Passes until nothing is left to read; a pass gives what it writes and what is left. -/
def readAll : Nat → List α → Option (List α)
  | _, [] => some []
  | 0, _ :: _ => none
  | fuel + 1, a :: src => do
    let (out, src) ← pass (a :: src)
    let rest ← readAll fuel src
    some (out ++ rest)

/-- So many passes, at most one for each element, read `bytes` as `out`. -/
def Decodes (bytes out : List α) : Prop :=
  ∃ m ≤ bytes.length, ∀ fuel rest, readAll pass (m + fuel) (bytes ++ rest) = (readAll pass fuel rest).map (out ++ ·)

variable {pass} {bytes out : List α}

theorem decodes_nil : Decodes pass [] [] := by
  refine ⟨0, Nat.le_refl 0, fun fuel rest => ?_⟩
  rw [Nat.zero_add, List.nil_append]
  cases readAll pass fuel rest <;> rfl

theorem decodes_pass (hne : bytes ≠ []) (h : ∀ rest, pass (bytes ++ rest) = some (out, rest)) :
    Decodes pass bytes out := by
  refine ⟨1, List.length_pos_iff.2 hne, fun fuel rest => ?_⟩
  obtain ⟨a, bytes, rfl⟩ := List.exists_cons_of_ne_nil hne
  have hpass := h rest
  rw [List.cons_append] at hpass ⊢
  rw [Nat.add_comm, readAll, hpass]
  cases hread : readAll pass fuel rest <;> simp [hread]

theorem Decodes.append (h : Decodes pass bytes out) {bytes' out' : List α} (h' : Decodes pass bytes' out') :
    Decodes pass (bytes ++ bytes') (out ++ out') := by
  obtain ⟨m, hm, hread⟩ := h
  obtain ⟨m', hm', hread'⟩ := h'
  refine ⟨m + m', ?_, fun fuel rest => ?_⟩
  · rw [List.length_append]
    omega
  · rw [List.append_assoc, Nat.add_assoc, hread, hread', Option.map_map]
    refine congrArg (Option.map · _) (funext fun l => ?_)
    exact (List.append_assoc out out' l).symm

theorem decodes_flatMap {β : Type} {f g : β → List α} {ts : List β} (h : ∀ t ∈ ts, Decodes pass (f t) (g t)) :
    Decodes pass (ts.flatMap f) (ts.flatMap g) := by
  induction ts with
  | nil => exact decodes_nil
  | cons t ts ih =>
    rw [List.flatMap_cons, List.flatMap_cons]
    exact (h t List.mem_cons_self).append (ih fun t ht => h t (List.mem_cons_of_mem _ ht))

theorem Decodes.readAll_eq (h : Decodes pass bytes out) : readAll pass bytes.length bytes = some out := by
  obtain ⟨m, hm, hread⟩ := h
  have hall := hread (bytes.length - m) []
  rw [Nat.add_sub_cancel' hm, List.append_nil, readAll, Option.map_some, List.append_nil] at hall
  exact hall

end

end RunLength
