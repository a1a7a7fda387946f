import Mathlib.Data.List.Basic
import Mathlib.Data.List.Perm.Basic

/-!
# Computations that draw numbers, say things and can fail

A computation takes the next number that is free. It fails, or it gives a result,
the next number behind it, and what it has said in order.

    Runs (x >>= f) n b k l ↔ ∃ a m l₁ l₂, Runs x n a m l₁ ∧ Runs (f a) m b k l₂ ∧ l = l₁ ++ l₂   (runs_bind)
-/

namespace RdfStore.Emission

variable {ε τ : Type} {α β σ : Type}

/-- From the next number: a failure, or a result, the next number and what was said. -/
def Emit (ε τ α : Type) := ℕ → Except ε (α × ℕ × List τ)

instance : Monad (Emit ε τ) where
  pure a := fun n => .ok (a, n, [])
  bind x f := fun n =>
    match x n with
    | .error e => .error e
    | .ok (a, m, l) =>
      match f a m with
      | .error e => .error e
      | .ok (b, k, l') => .ok (b, k, l ++ l')

/-- The next number. -/
def draw : Emit ε τ ℕ := fun n => .ok (n, n + 1, [])

/-- Something is said. -/
def emit (t : τ) : Emit ε τ Unit := fun n => .ok ((), n, [t])

/-- The computation fails. -/
def croak (e : ε) : Emit ε τ α := fun _ => .error e

/-! ## Runs -/

/-- The computation gives `a`, leaves `m` as the next number and says `l`. -/
def Runs (x : Emit ε τ α) (n : ℕ) (a : α) (m : ℕ) (l : List τ) : Prop := x n = .ok (a, m, l)

@[simp] theorem runs_pure {a b : α} {n m : ℕ} {l : List τ} :
    Runs (pure a : Emit ε τ α) n b m l ↔ a = b ∧ n = m ∧ l = [] := by
  show (Except.ok (a, n, []) : Except ε (α × ℕ × List τ)) = .ok (b, m, l) ↔ _
  simp only [Except.ok.injEq, Prod.mk.injEq, @eq_comm _ []]

@[simp] theorem runs_draw {a n m : ℕ} {l : List τ} :
    Runs (draw : Emit ε τ ℕ) n a m l ↔ n = a ∧ n + 1 = m ∧ l = [] := by
  show (Except.ok (n, n + 1, []) : Except ε (ℕ × ℕ × List τ)) = .ok (a, m, l) ↔ _
  simp only [Except.ok.injEq, Prod.mk.injEq, @eq_comm _ []]

@[simp] theorem runs_emit {t : τ} {u : Unit} {n m : ℕ} {l : List τ} :
    Runs (emit t : Emit ε τ Unit) n u m l ↔ n = m ∧ l = [t] := by
  show (Except.ok ((), n, [t]) : Except ε (Unit × ℕ × List τ)) = .ok (u, m, l) ↔ _
  simp only [Except.ok.injEq, Prod.mk.injEq, true_and, @eq_comm _ [t]]

@[simp] theorem runs_croak {e : ε} {a : α} {n m : ℕ} {l : List τ} :
    Runs (croak e : Emit ε τ α) n a m l ↔ False := by
  show (Except.error e : Except ε (α × ℕ × List τ)) = .ok (a, m, l) ↔ False
  simp only [reduceCtorEq]

/-- One computation behind the other. -/
theorem runs_bind {x : Emit ε τ α} {f : α → Emit ε τ β} {b : β} {n k : ℕ} {l : List τ} :
    Runs (x >>= f) n b k l ↔
      ∃ a m l₁ l₂, Runs x n a m l₁ ∧ Runs (f a) m b k l₂ ∧ l = l₁ ++ l₂ := by
  show (match x n with
    | .error e => .error e
    | .ok (a, m, l) =>
      match f a m with
      | .error e => .error e
      | .ok (b, k, l') => .ok (b, k, l ++ l')) = Except.ok (b, k, l) ↔ _
  constructor
  · intro h
    cases hx : x n with
    | error e => simp only [hx, reduceCtorEq] at h
    | ok r =>
      obtain ⟨a, m, l₁⟩ := r
      simp only [hx] at h
      cases hf : f a m with
      | error e => simp only [hf, reduceCtorEq] at h
      | ok r' =>
        obtain ⟨b', k', l₂⟩ := r'
        simp only [hf, Except.ok.injEq, Prod.mk.injEq] at h
        obtain ⟨rfl, rfl, rfl⟩ := h
        exact ⟨a, m, l₁, l₂, hx, hf, rfl⟩
  · rintro ⟨a, m, l₁, l₂, hx, hf, rfl⟩
    have hx : x n = .ok (a, m, l₁) := hx
    have hf : f a m = .ok (b, k, l₂) := hf
    simp only [hx, hf]

/-- A computation gives one result. -/
theorem Runs.unique {x : Emit ε τ α} {n m m' : ℕ} {a a' : α} {l l' : List τ} (h : Runs x n a m l)
    (h' : Runs x n a' m' l') : a = a' ∧ m = m' ∧ l = l' := by
  have he : (Except.ok (a, m, l) : Except ε (α × ℕ × List τ)) = .ok (a', m', l') := h.symm.trans h'
  simp only [Except.ok.injEq, Prod.mk.injEq] at he
  exact he

/-! ## Loops -/

@[simp] theorem runs_foldlM_nil {f : σ → β → Emit ε τ σ} {s t : σ} {n m : ℕ} {l : List τ} :
    Runs (List.foldlM f s []) n t m l ↔ s = t ∧ n = m ∧ l = [] := by
  rw [List.foldlM_nil, runs_pure]

theorem runs_foldlM_cons {f : σ → β → Emit ε τ σ} {s t : σ} {b : β} {bs : List β} {n k : ℕ}
    {l : List τ} :
    Runs (List.foldlM f s (b :: bs)) n t k l ↔
      ∃ s' m l₁ l₂, Runs (f s b) n s' m l₁ ∧ Runs (List.foldlM f s' bs) m t k l₂ ∧ l = l₁ ++ l₂ := by
  rw [List.foldlM_cons, runs_bind]

/-- What a loop keeps: what is done, the next number, the state and what was said so far. -/
theorem Runs.foldlM_keeps {f : σ → β → Emit ε τ σ} {bs : List β} {s t : σ} {n k : ℕ} {l : List τ}
    (I : List β → ℕ → σ → List τ → Prop) (h : Runs (List.foldlM f s bs) n t k l) (h₀ : I [] n s [])
    (hstep : ∀ done b rest, bs = done ++ b :: rest → ∀ n s l₀ s' m l, I done n s l₀ → Runs (f s b) n s' m l →
      I (done ++ [b]) m s' (l₀ ++ l)) : I bs k t l := by
  -- the induction is on what is left to do, behind what is done
  have key : ∀ rest done s n l₀ l, bs = done ++ rest → I done n s l₀ → Runs (List.foldlM f s rest) n t k l →
      I bs k t (l₀ ++ l) := by
    intro rest
    induction rest with
    | nil =>
      intro done s n l₀ l hbs hI hr
      obtain ⟨rfl, rfl, rfl⟩ := runs_foldlM_nil.mp hr
      rw [hbs, List.append_nil, List.append_nil]
      exact hI
    | cons b rest ih =>
      intro done s n l₀ l hbs hI hr
      obtain ⟨s', m, l₁, l₂, h₁, h₂, rfl⟩ := runs_foldlM_cons.mp hr
      rw [← List.append_assoc]
      refine ih (done ++ [b]) s' m (l₀ ++ l₁) l₂ ?_ (hstep done b rest hbs n s l₀ s' m l₁ hI h₁) h₂
      rw [hbs, List.append_assoc, List.singleton_append]
  exact key bs [] s n [] l rfl h₀ h

/-! ## What is said -/

/-- The computation draws forward, and all it says satisfies `Q`. -/
def Says (Q : τ → Prop) (x : Emit ε τ α) : Prop :=
  ∀ ⦃n a m l⦄, Runs x n a m l → n ≤ m ∧ ∀ t ∈ l, Q t

variable {Q Q' : τ → Prop}

theorem Says.mono {x : Emit ε τ α} (h : Says Q x) (hq : ∀ t, Q t → Q' t) : Says Q' x := by
  intro n a m l hr
  obtain ⟨hm, hl⟩ := h hr
  exact ⟨hm, fun t ht => hq t (hl t ht)⟩

theorem says_pure (a : α) : Says Q (pure a : Emit ε τ α) := by
  intro n b m l h
  obtain ⟨rfl, rfl, rfl⟩ := runs_pure.mp h
  exact ⟨Nat.le_refl _, fun t ht => absurd ht List.not_mem_nil⟩

theorem says_draw : Says Q (draw : Emit ε τ ℕ) := by
  intro n b m l h
  obtain ⟨rfl, rfl, rfl⟩ := runs_draw.mp h
  exact ⟨Nat.le_succ _, fun t ht => absurd ht List.not_mem_nil⟩

theorem says_croak (e : ε) : Says Q (croak e : Emit ε τ α) := by
  intro n b m l h
  exact absurd h runs_croak.mp

theorem says_emit {t : τ} (h : Q t) : Says Q (emit t : Emit ε τ Unit) := by
  intro n b m l hr
  obtain ⟨rfl, rfl⟩ := runs_emit.mp hr
  refine ⟨Nat.le_refl _, fun u hu => ?_⟩
  rw [List.mem_singleton.mp hu]
  exact h

theorem says_bind {x : Emit ε τ α} {f : α → Emit ε τ β} (hx : Says Q x) (hf : ∀ a, Says Q (f a)) :
    Says Q (x >>= f) := by
  intro n b k l h
  obtain ⟨a, m, l₁, l₂, h₁, h₂, rfl⟩ := runs_bind.mp h
  obtain ⟨hm, hl₁⟩ := hx h₁
  obtain ⟨hk, hl₂⟩ := hf a h₂
  refine ⟨Nat.le_trans hm hk, fun t ht => ?_⟩
  rcases List.mem_append.mp ht with ht | ht
  · exact hl₁ t ht
  · exact hl₂ t ht

theorem says_foldlM {f : σ → β → Emit ε τ σ} {bs : List β} (hf : ∀ s, ∀ b ∈ bs, Says Q (f s b)) (s : σ) :
    Says Q (List.foldlM f s bs) := by
  intro n t k l h
  refine h.foldlM_keeps (fun _ m _ l => n ≤ m ∧ ∀ t ∈ l, Q t)
    ⟨Nat.le_refl _, fun t ht => absurd ht List.not_mem_nil⟩ ?_
  · rintro done b rest rfl m s l₀ s' m' l' ⟨hm, hl⟩ hr
    have hb : b ∈ done ++ b :: rest := List.mem_append_right done List.mem_cons_self
    obtain ⟨hm', hl'⟩ := hf s b hb hr
    refine ⟨Nat.le_trans hm hm', fun t ht => ?_⟩
    rcases List.mem_append.mp ht with ht | ht
    · exact hl t ht
    · exact hl' t ht

/-! ## What is given back -/

/-- Every result satisfies `J`. -/
def Gives (J : α → Prop) (x : Emit ε τ α) : Prop := ∀ ⦃n a m l⦄, Runs x n a m l → J a

theorem gives_pure {J : α → Prop} {a : α} (h : J a) : Gives J (pure a : Emit ε τ α) := by
  intro n b m l hr
  rw [← (runs_pure.mp hr).1]
  exact h

theorem gives_croak {J : α → Prop} (e : ε) : Gives J (croak e : Emit ε τ α) := by
  intro n b m l hr
  exact absurd hr runs_croak.mp

theorem gives_bind {J : β → Prop} {x : Emit ε τ α} {f : α → Emit ε τ β} (hf : ∀ a, Gives J (f a)) :
    Gives J (x >>= f) := by
  intro n b k l h
  obtain ⟨a, m, l₁, l₂, -, h₂, -⟩ := runs_bind.mp h
  exact hf a h₂

/-! ## No failure -/

/-- The computation fails from no number. -/
def Returns (x : Emit ε τ α) : Prop := ∀ n, ∃ a m l, Runs x n a m l

theorem returns_pure (a : α) : Returns (pure a : Emit ε τ α) := fun n => ⟨a, n, [], runs_pure.mpr ⟨rfl, rfl, rfl⟩⟩

theorem returns_draw : Returns (draw : Emit ε τ ℕ) := fun n => ⟨n, n + 1, [], runs_draw.mpr ⟨rfl, rfl, rfl⟩⟩

theorem returns_emit (t : τ) : Returns (emit t : Emit ε τ Unit) := fun n => ⟨(), n, [t], runs_emit.mpr ⟨rfl, rfl⟩⟩

/-- What comes behind need only return from the results that there are. -/
theorem returns_bind_of {J : α → Prop} {x : Emit ε τ α} {f : α → Emit ε τ β} (hx : Returns x) (hJ : Gives J x)
    (hf : ∀ a, J a → Returns (f a)) : Returns (x >>= f) := by
  intro n
  obtain ⟨a, m, l₁, h₁⟩ := hx n
  obtain ⟨b, k, l₂, h₂⟩ := hf a (hJ h₁) m
  exact ⟨b, k, l₁ ++ l₂, runs_bind.mpr ⟨a, m, l₁, l₂, h₁, h₂, rfl⟩⟩

theorem returns_bind {x : Emit ε τ α} {f : α → Emit ε τ β} (hx : Returns x) (hf : ∀ a, Returns (f a)) :
    Returns (x >>= f) :=
  returns_bind_of hx (fun _ _ _ _ _ => trivial) fun a _ => hf a

theorem returns_foldlM {J : σ → Prop} {f : σ → β → Emit ε τ σ} {bs : List β}
    (hf : ∀ s, J s → ∀ b ∈ bs, Returns (f s b) ∧ Gives J (f s b)) {s : σ} (hs : J s) : Returns (List.foldlM f s bs) := by
  induction bs generalizing s with
  | nil =>
    rw [List.foldlM_nil]
    exact returns_pure s
  | cons b bs ih =>
    rw [List.foldlM_cons]
    obtain ⟨hreturns, hgives⟩ := hf s hs b List.mem_cons_self
    exact returns_bind_of hreturns hgives fun s' hs' => ih (fun s hs b hb => hf s hs b (List.mem_cons_of_mem _ hb)) hs'

end RdfStore.Emission
