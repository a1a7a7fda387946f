import RdfStore.Dbms.Framing

/-!
# The sizes of a request (`initial_read`)

The two lengths of a header come from the client.  The size of `v1` is compared
with 2 MiB, twice; the size of `v2` never is, and all that bounds it is the
comparison of the sum, of 32 bits, with the size of the buffer.

    refused, or both sizes bounded and both payloads inside the buffer
      ↔ the sum does not wrap around to a small one                  (initialRead_bounded_iff)
-/

namespace RdfStore.Dbms

open ByteMem

/-! ## What is to be bounded -/

/-- The payload is within `recbuff`; a NULL pointer goes with an empty one. -/
def Dbt.Inside (v : Dbt) : Prop :=
  match v.data with
  | none => v.size = 0
  | some data => data + v.size.toNat ≤ maxCsPayload

/-- Both lengths are at most 2 MiB, their sum is one of 32 bits and fits the buffer, and the
payloads are inside it. -/
structure SizesBounded (cmd : Header) (c : Channel) : Prop where
  len1 : cmd.len1.toNat ≤ maxSize
  len2 : cmd.len2.toNat ≤ maxSize
  sum : (cmd.len1 + cmd.len2).toNat = cmd.len1.toNat + cmd.len2.toNat
  fits : cmd.len1.toNat + cmd.len2.toNat ≤ maxCsPayload
  v1 : c.r.v1.size = cmd.len1 ∧ c.r.v1.Inside
  v2 : c.r.v2.size = cmd.len2 ∧ c.r.v2.Inside

/-- However the rest of the request is read and handled, the connection is marked for closing or
the sizes are bounded. -/
def RequestBounded (cmd : Header) (c : Channel) : Prop :=
  ∀ n readv handled, headerSize ≤ n →
    (initialRead (.took n) readv handled c).r.close = true ∨
      SizesBounded cmd (initialRead (.took n) readv handled c)

/-- The sum of the lengths is 2^32 or a little more, and the first is not too big. -/
def Header.WrapsSmall (cmd : Header) : Prop :=
  cmd.len1.toNat ≤ maxSize ∧ 2 ^ 32 ≤ cmd.len1.toNat + cmd.len2.toNat ∧
    cmd.len1.toNat + cmd.len2.toNat ≤ 2 ^ 32 + maxCsPayload

instance (cmd : Header) : Decidable cmd.WrapsSmall := inferInstanceAs (Decidable (_ ∧ _ ∧ _))

/-! ## The rest of the request leaves the sizes alone -/

section

variable {readv : ReadvResult} {handled : Handled} {c : Channel}

theorem received_v1 (n : Nat) : (received n handled c).r.v1 = c.r.v1 := by
  unfold received
  simp only [Channel.consume]
  split <;> rfl

theorem received_v2 (n : Nat) : (received n handled c).r.v2 = c.r.v2 := by
  unfold received
  simp only [Channel.consume]
  split <;> rfl

theorem readvRest_v1 : (readvRest readv handled c).r.v1 = c.r.v1 := by
  cases readv with
  | took n => exact received_v1 _
  | eof => rfl
  | failed => rfl

theorem readvRest_v2 : (readvRest readv handled c).r.v2 = c.r.v2 := by
  cases readv with
  | took n => exact received_v2 _
  | eof => rfl
  | failed => rfl

/-- Nothing closes the connection once bytes come and the request is handled. -/
theorem readvRest_took_close {n : Nat} (hopen : c.r.close = false) (hhandled : handled.close = false) :
    (readvRest (.took n) handled c).r.close = false :=
  received_close (c := c.consume headerSize) hopen hhandled

/-! ## The comparisons -/

theorem toNat_add_len (cmd : Header) :
    (cmd.len1 + cmd.len2).toNat = (cmd.len1.toNat + cmd.len2.toNat) % 2 ^ 32 :=
  UInt32.toNat_add _ _

/-- A header that passes the comparisons. -/
theorem readCommand_of_passes {cmd : Header} (h1 : cmd.len1.toNat ≤ maxSize)
    (hsum : (cmd.len1 + cmd.len2).toNat ≤ maxCsPayload) :
    ∃ c', readCommand cmd readv handled c = readvRest readv handled c' ∧ c'.r.close = c.r.close ∧
      c'.r.v1.size = cmd.len1 ∧ c'.r.v2.size = cmd.len2 ∧
      (c'.r.v1.data = if cmd.len1 + cmd.len2 > 0 then some 0 else none) ∧
      (c'.r.v2.data = if cmd.len1 + cmd.len2 > 0 then some cmd.len1.toNat else none) := by
  have h1' : ¬ cmd.len1.toNat > maxSize := not_lt.2 h1
  have hsum' : ¬ (cmd.len1 + cmd.len2).toNat > maxCsPayload := not_lt.2 hsum
  unfold readCommand
  simp only [if_neg h1', if_neg hsum']
  by_cases hpos : cmd.len1 + cmd.len2 > 0
  · simp only [if_pos hpos]
    exact ⟨_, rfl, rfl, rfl, rfl, rfl, rfl⟩
  · simp only [if_neg hpos]
    exact ⟨_, rfl, rfl, rfl, rfl, rfl, rfl⟩

/-- A header that does not. -/
theorem readCommand_refused {cmd : Header}
    (h : maxSize < cmd.len1.toNat ∨ maxCsPayload < (cmd.len1 + cmd.len2).toNat) :
    (readCommand cmd readv handled c).r.close = true := by
  unfold readCommand
  rcases h with h1 | hsum
  · rw [if_pos h1]
    rfl
  · by_cases h1 : cmd.len1.toNat > maxSize
    · rw [if_pos h1]
      rfl
    · have hpos : cmd.len1 + cmd.len2 > 0 := by
        rw [gt_iff_lt, UInt32.lt_iff_toNat_lt]
        exact Nat.zero_lt_of_lt hsum
      simp only [if_neg h1, if_pos hpos, if_pos hsum]
      rfl

/-- A header that passes with a sum that does not wrap is bounded. -/
theorem readCommand_bounded {cmd : Header} (h1 : cmd.len1.toNat ≤ maxSize)
    (hsum : cmd.len1.toNat + cmd.len2.toNat ≤ maxCsPayload) :
    SizesBounded cmd (readCommand cmd readv handled c) := by
  have hadd : (cmd.len1 + cmd.len2).toNat = cmd.len1.toNat + cmd.len2.toNat := by
    rw [toNat_add_len]
    refine Nat.mod_eq_of_lt (lt_of_le_of_lt hsum ?_)
    decide
  obtain ⟨c', heq, -, hs1, hs2, hd1, hd2⟩ :=
    @readCommand_of_passes readv handled c cmd h1 (hadd ▸ hsum)
  have hmax : maxCsPayload ≤ maxSize := by decide
  have hinside : c'.r.v1.Inside ∧ c'.r.v2.Inside := by
    unfold Dbt.Inside
    rw [hd1, hd2, hs1, hs2]
    by_cases hpos : cmd.len1 + cmd.len2 > 0
    · simp only [if_pos hpos]
      constructor
      · omega
      · exact hsum
    · have hzero : cmd.len1.toNat + cmd.len2.toNat = 0 := by
        rw [← hadd]
        simpa [UInt32.lt_iff_toNat_lt] using hpos
      simp only [if_neg hpos]
      have hzero1 : cmd.len1.toNat = 0 := by omega
      have hzero2 : cmd.len2.toNat = 0 := by omega
      exact ⟨UInt32.toNat_inj.1 hzero1, UInt32.toNat_inj.1 hzero2⟩
  rw [heq]
  exact {
    len1 := h1
    len2 := by omega
    sum := hadd
    fits := hsum
    v1 := by
      rw [readvRest_v1]
      exact ⟨hs1, hinside.1⟩
    v2 := by
      rw [readvRest_v2]
      exact ⟨hs2, hinside.2⟩ }

/-- A sum that wraps around to a small one is taken. -/
theorem readCommand_wraps {cmd : Header} {n : Nat} (h : cmd.WrapsSmall) (hopen : c.r.close = false)
    (hhandled : handled.close = false) : (readCommand cmd (.took n) handled c).r.close = false := by
  obtain ⟨h1, hwrap, hsmall⟩ := h
  have hmax : maxCsPayload < 2 ^ 32 := by decide
  have hsum : (cmd.len1 + cmd.len2).toNat ≤ maxCsPayload := by
    rw [toNat_add_len]
    omega
  obtain ⟨c', heq, hclose, -⟩ :=
    @readCommand_of_passes (.took n) handled c cmd h1 hsum
  rw [heq]
  exact readvRest_took_close (hclose.trans hopen) hhandled

/-- The header is all there. -/
theorem initialRead_took {cmd : Header} {rest : Bytes} {n : Nat} (hstream : c.stream = cmd.bytes ++ rest)
    (harrived : headerSize ≤ c.arrived) (hn : headerSize ≤ n) :
    initialRead (.took n) readv handled c = readCommand cmd readv handled c := by
  have hcount : c.count n headerSize = headerSize := by
    unfold Channel.count
    omega
  simp only [initialRead, hcount, ne_eq, not_true_eq_false, if_false]
  rw [hstream, Header.ofBytes_append]

end

/-- Of an open connection at which a header has arrived: whatever its lengths are, the request is
refused or bounded, if and only if the sum does not wrap around to a small one. -/
theorem initialRead_bounded_iff (cmd : Header) (rest : Bytes) (c : Channel) (hopen : c.r.close = false)
    (hstream : c.stream = cmd.bytes ++ rest) (harrived : headerSize ≤ c.arrived) :
    RequestBounded cmd c ↔ ¬ cmd.WrapsSmall := by
  constructor
  · intro h hwraps
    have htook := h headerSize (.took headerSize) ⟨false, 0⟩ le_rfl
    rw [initialRead_took hstream harrived le_rfl] at htook
    rcases htook with hclose | hbounded
    · rw [readCommand_wraps hwraps hopen rfl] at hclose
      cases hclose
    · have hfits := hbounded.fits
      have hmax : maxCsPayload < 2 ^ 32 := by decide
      obtain ⟨-, hwrap, -⟩ := hwraps
      omega
  · intro hwraps n readv handled hn
    rw [initialRead_took hstream harrived hn]
    by_cases href : maxSize < cmd.len1.toNat ∨ maxCsPayload < (cmd.len1 + cmd.len2).toNat
    · exact Or.inl (readCommand_refused href)
    · push Not at href
      obtain ⟨h1, hsum⟩ := href
      rw [toNat_add_len] at hsum
      refine Or.inr (readCommand_bounded h1 ?_)
      have h2 : cmd.len2.toNat < 2 ^ 32 := cmd.len2.toNat_lt
      have hmax : maxSize < 2 ^ 32 := by decide
      unfold Header.WrapsSmall at hwraps
      omega

/-- One byte and 2^32 - 1 bytes, announced. -/
def wrappingHeader : Header := ⟨2, (0, 0, 0), 1, 4294967295⟩

/-- A connection at which that header has arrived. -/
def wrappingChannel : Channel where
  r := (Channel.start (fun _ => 0) []).r
  stream := wrappingHeader.bytes
  arrived := headerSize
  calls := []

/-- The announced sum is 0: the request is taken, with a size of 2^32 - 1 and no buffer. -/
theorem initialRead_wrapping :
    (initialRead (.took headerSize) (.took headerSize) ⟨false, 0⟩ wrappingChannel).r.close = false ∧
      (initialRead (.took headerSize) (.took headerSize) ⟨false, 0⟩ wrappingChannel).r.v2.size = 4294967295 ∧
      ¬ RequestBounded wrappingHeader wrappingChannel := by
  refine ⟨by decide, by decide, fun h => ?_⟩
  rcases h headerSize (.took headerSize) ⟨false, 0⟩ le_rfl with hclose | hbounded
  · revert hclose
    decide
  · have hlen2 := hbounded.len2
    revert hlen2
    decide

theorem initialRead_bounded_iff_wrapping :
    RequestBounded wrappingHeader wrappingChannel ↔ ¬ wrappingHeader.WrapsSmall :=
  initialRead_bounded_iff wrappingHeader [] wrappingChannel rfl (List.append_nil _).symm le_rfl

end RdfStore.Dbms
