import RdfStore.CacheCoherence
import RdfStore.Dbms.Comms

/-!
# Packed counters (`handler.c`, `backend_bdb_store.c`, `backend_caching_store.c`)

A counter under a key is counted up and down by the server, by the local table and
by the cache before it.  The server writes a byte too many when it counts down.

    the local table and the cache hold and return the same four bytes            (localRun)
    the server too ↔ nothing is counted down                                     (agreeRun_iff)
-/

namespace RdfStore

open ByteMem Dbms

/-! ## The local table -/

section

-- what lies in memory behind a value
variable (behind : Bytes)

/-- The value `l` is put back under the key and returned. -/
def backendBdbPut (db : FlatDb) (key : Bytes) (l : UInt32) : Except FlatStoreError Bytes × FlatDb :=
  (.ok (packInt l.toNat), rdfstoreFlatStoreStore db key (packInt l.toNat))

/-- `backend_bdb_inc` -/
def backendBdbInc (db : FlatDb) (key : Bytes) : Except FlatStoreError Bytes × FlatDb :=
  match rdfstoreFlatStoreFetch db key with
  | none => (.error (.other (-1)), db)
  | some val => backendBdbPut db key (counterOf behind val + 1)

/-- `backend_bdb_dec`; `none` where `assert(l > 0)` fails. -/
def backendBdbDec (db : FlatDb) (key : Bytes) : Option (Except FlatStoreError Bytes × FlatDb) :=
  match rdfstoreFlatStoreFetch db key with
  | none => some (.error (.other (-1)), db)
  | some val =>
    if counterOf behind val = 0 then none else some (backendBdbPut db key (counterOf behind val - 1))

/-! ## Runs -/

inductive CountStep
  | inc
  | dec
  deriving DecidableEq

def CountStep.apply (n : ℕ) : CountStep → ℕ
  | .inc => n + 1
  | .dec => n - 1

/-- The running value stays between 0 and 2^32-1. -/
def StaysInRange : List CountStep → ℕ → Prop
  | [], _ => True
  | .inc :: steps, n => n + 1 < 2 ^ 32 ∧ StaysInRange steps (n + 1)
  | .dec :: steps, n => 0 < n ∧ StaysInRange steps (n - 1)

/-- The three tables. -/
structure Counters where
  server : Db
  bdb : FlatDb
  cached : BackendCaching FlatDb

/-- Under the key they all hold the value: the cache answers it, and writes it back. -/
structure Counters.Hold (c : Counters) (key v : Bytes) : Prop where
  server : c.server key = some v
  bdb : rdfstoreFlatStoreFetch c.bdb key = some v
  cached : ∃ me, backendCachingFetch flatBackend c.cached key = some (.ok v, me)
  written : rdfstoreFlatStoreFetch (purgecache flatBackend c.cached).inst key = some v

-- the fifth byte of the server's `outbuf`
variable (outbuf4 : UInt8)

def CountStep.server (db : Db) (key : Bytes) : CountStep → ServerReply × Db
  | .inc => doPackinc behind db key
  | .dec => doPackdec behind outbuf4 db key

def CountStep.bdb (db : FlatDb) (key : Bytes) : CountStep → Option (Except FlatStoreError Bytes × FlatDb)
  | .inc => some (backendBdbInc behind db key)
  | .dec => backendBdbDec behind db key

def CountStep.cached (me : BackendCaching FlatDb) (key : Bytes) :
    CountStep → Option (Except FlatStoreError Bytes × BackendCaching FlatDb)
  | .inc => backendCachingInc flatBackend me key
  | .dec => backendCachingDec flatBackend me key

/-- After every step the three return and hold the four bytes of the running value. -/
def AgreeRun (key : Bytes) : List CountStep → ℕ → Counters → Prop
  | [], _, _ => True
  | s :: steps, n, c =>
    let v := packInt (s.apply n)
    let reply := s.server behind outbuf4 c.server key
    ∃ bdb cached, reply.1.found = true ∧ reply.1.v2 = v ∧ s.bdb behind c.bdb key = some (.ok v, bdb) ∧
      s.cached c.cached key = some (.ok v, cached) ∧ Counters.Hold ⟨reply.2, bdb, cached⟩ key v ∧
        AgreeRun key steps (s.apply n) ⟨reply.2, bdb, cached⟩

end

/-! ## Numbers -/

/-- Four bytes hold a number modulo 2^32. -/
theorem packInt_congr {m n : ℕ} (h : m % 2 ^ 32 = n % 2 ^ 32) : packInt m = packInt n := by
  unfold packInt
  have hbyte : ∀ {a b : ℕ}, a % 256 = b % 256 → a.toUInt8 = b.toUInt8 := fun h => UInt8.toNat_inj.1 (by simpa using h)
  rw [hbyte (show m / 2 ^ 24 % 256 = n / 2 ^ 24 % 256 by omega), hbyte (show m / 2 ^ 16 % 256 = n / 2 ^ 16 % 256 by omega),
    hbyte (show m / 2 ^ 8 % 256 = n / 2 ^ 8 % 256 by omega), hbyte (show m % 256 = n % 256 by omega)]

section

variable {behind : Bytes} {outbuf4 : UInt8} {key : Bytes} {n : ℕ}

theorem counterOf_pack (n : ℕ) : counterOf behind (packInt n) = n.toUInt32 := by
  have hn : packInt n = packInt n.toUInt32.toNat := packInt_congr (by simp)
  rw [hn, ← List.append_nil (packInt _), counterOf_packInt]

theorem packInt_succ (n : ℕ) : packInt (n.toUInt32 + 1).toNat = packInt (n + 1) :=
  packInt_congr (by simp)

theorem packInt_pred (hpos : 0 < n) (hlt : n < 2 ^ 32) : packInt (n.toUInt32 - 1).toNat = packInt (n - 1) := by
  refine packInt_congr ?_
  have hone : (1 : UInt32) ≤ n.toUInt32 := by
    rw [UInt32.le_iff_toNat_le]
    simp only [UInt32.toNat_ofNat, Nat.toUInt32_eq, UInt32.toNat_ofNat']
    omega
  rw [UInt32.toNat_sub_of_le _ _ hone]
  simp only [Nat.toUInt32_eq, UInt32.toNat_ofNat', UInt32.toNat_ofNat]
  omega

/-! ## One step -/

theorem server_inc (behind : Bytes) {db : Db} (h : db key = some (packInt n)) :
    doPackinc behind db key =
      (⟨tokenPackinc, true, [], packInt (n + 1)⟩, Function.update db key (some (packInt (n + 1)))) := by
  have hne : packInt n ≠ [] := List.cons_ne_nil _ _
  simp only [doPackinc, doPackcount, h, hne, if_false, counterOf_pack, List.append_nil]
  rw [packInt_succ]

/-- The server's value is a byte too long. -/
theorem server_dec (behind : Bytes) (outbuf4 : UInt8) {db : Db} (h : db key = some (packInt n)) :
    (doPackdec behind outbuf4 db key).1.v2.length = 5 := by
  have hne : packInt n ≠ [] := List.cons_ne_nil _ _
  simp only [doPackdec, doPackcount, h, hne, if_false, List.length_append, length_packInt, List.length_singleton]

theorem bdb_step (behind : Bytes) {db : FlatDb} (h : rdfstoreFlatStoreFetch db key = some (packInt n)) {s : CountStep}
    (hs : StaysInRange [s] n) (hlt : n < 2 ^ 32) :
    s.bdb behind db key =
      some (.ok (packInt (s.apply n)), rdfstoreFlatStoreStore db key (packInt (s.apply n))) := by
  cases s with
  | inc =>
    simp only [CountStep.bdb, backendBdbInc, h, backendBdbPut, counterOf_pack]
    rw [packInt_succ]
    rfl
  | dec =>
    have hpos : 0 < n := hs.1
    have hne : n.toUInt32 ≠ 0 := by
      intro hzero
      have := congrArg UInt32.toNat hzero
      simp only [Nat.toUInt32_eq, UInt32.toNat_ofNat', UInt32.toNat_zero] at this
      omega
    simp only [CountStep.bdb, backendBdbDec, h, backendBdbPut, counterOf_pack, hne, if_false]
    rw [packInt_pred hpos hlt]
    rfl

theorem Simulates.count {me : BackendCaching FlatDb} {m : FlatDb} (hsim : Simulates me m) {v : Bytes}
    (h : rdfstoreFlatStoreFetch m key = some v) (hlen : v.length = 4) (step : ℕ → ℕ) :
    ∃ me', backendCachingCount flatBackend step me key = some (.ok (packInt (step (unpackInt v))), me') ∧
      Simulates me' (rdfstoreFlatStoreStore m key (packInt (step (unpackInt v)))) := by
  obtain ⟨me₁, hfetch, hsim₁⟩ := hsim.fetch key
  have hval : (flatBackend.fetch m key).1 = .ok v := by simp only [flatBackend, h]
  rw [hval] at hfetch
  obtain ⟨me₂, hstore, hsim₂⟩ := hsim₁.store key (packInt (step (unpackInt v)))
  refine ⟨me₂, ?_, hsim₂⟩
  unfold backendCachingCount
  have hdrop : v.drop 4 = [] := List.drop_eq_nil_of_le hlen.le
  simp only [hfetch, hlen, hdrop, List.append_nil, hstore, Option.bind_eq_bind, Option.bind_some, Nat.lt_irrefl, if_false]
  rfl

theorem cached_step (key : Bytes) {me : BackendCaching FlatDb} {m : FlatDb} (hsim : Simulates me m)
    (h : rdfstoreFlatStoreFetch m key = some (packInt n)) {s : CountStep} (hs : StaysInRange [s] n) (hlt : n < 2 ^ 32) :
    ∃ me', s.cached me key = some (.ok (packInt (s.apply n)), me') ∧
      Simulates me' (rdfstoreFlatStoreStore m key (packInt (s.apply n))) := by
  have hread := unpackInt_packInt_of_lt hlt
  cases s with
  | inc =>
    have hcount := hsim.count h rfl (· + 1)
    rwa [hread] at hcount
  | dec =>
    have hpos : 0 < n := hs.1
    have hpack : packInt (n + (2 ^ 32 - 1)) = packInt (n - 1) := packInt_congr (by omega)
    have hcount := hsim.count h rfl (· + (2 ^ 32 - 1))
    rw [hread] at hcount
    simp only [hpack] at hcount
    exact hcount

/-- What the cache writes back is what it stands for. -/
theorem Simulates.written {me : BackendCaching FlatDb} {m : FlatDb} (h : Simulates me m) (k : Bytes) :
    rdfstoreFlatStoreFetch (purgecache flatBackend me).inst k = rdfstoreFlatStoreFetch m k := by
  obtain ⟨l, hok, hco⟩ := h
  obtain ⟨c, hpurge, -, -⟩ := @CachingStore.Ok.purgecache _ l _ flatBackend hok me.inst
  rw [hpurge]
  exact (hco.purge.rest k nofun).symm

theorem Counters.hold {server : Db} {bdb m : FlatDb} {me : BackendCaching FlatDb} (hsim : Simulates me m) (v : Bytes)
    (hserver : server key = some v) (hbdb : rdfstoreFlatStoreFetch bdb key = some v)
    (hm : rdfstoreFlatStoreFetch m key = some v) : Counters.Hold ⟨server, bdb, me⟩ key v := by
  refine ⟨hserver, hbdb, ?_, (hsim.written key).trans hm⟩
  obtain ⟨me', hfetch, -⟩ := hsim.fetch key
  have hval : (flatBackend.fetch m key).1 = .ok v := by simp only [flatBackend, hm]
  exact ⟨me', by rw [hfetch, hval]⟩

/-- The local table and the cache before it agree in every run, also where they count down. -/
def LocalRun (behind key : Bytes) : List CountStep → ℕ → FlatDb → BackendCaching FlatDb → Prop
  | [], _, _, _ => True
  | s :: steps, n, bdb, me =>
    let v := packInt (s.apply n)
    ∃ bdb' me', s.bdb behind bdb key = some (.ok v, bdb') ∧ s.cached me key = some (.ok v, me') ∧
      rdfstoreFlatStoreFetch bdb' key = some v ∧ rdfstoreFlatStoreFetch (purgecache flatBackend me').inst key = some v ∧
        LocalRun behind key steps (s.apply n) bdb' me'

theorem localRun {steps : List CountStep} {bdb m : FlatDb} {me : BackendCaching FlatDb} (hlt : n < 2 ^ 32)
    (hbdb : rdfstoreFlatStoreFetch bdb key = some (packInt n)) (hcached : Simulates me m)
    (hm : rdfstoreFlatStoreFetch m key = some (packInt n)) (hrange : StaysInRange steps n) :
    LocalRun behind key steps n bdb me := by
  induction steps generalizing n bdb m me with
  | nil => trivial
  | cons s steps ih =>
    have hone : StaysInRange [s] n := by
      cases s with
      | inc => exact ⟨hrange.1, trivial⟩
      | dec => exact ⟨hrange.1, trivial⟩
    have hnext : s.apply n < 2 ^ 32 := by
      cases s with
      | inc => exact hrange.1
      | dec => exact lt_of_le_of_lt (Nat.sub_le n 1) hlt
    have hrest : StaysInRange steps (s.apply n) := by
      cases s with
      | inc => exact hrange.2
      | dec => exact hrange.2
    obtain ⟨me', hcount, hsim⟩ := cached_step key hcached hm hone hlt
    have hbdb' : rdfstoreFlatStoreFetch (rdfstoreFlatStoreStore bdb key (packInt (s.apply n))) key =
        some (packInt (s.apply n)) := fetch_store_same _ _ _
    have hm' : rdfstoreFlatStoreFetch (rdfstoreFlatStoreStore m key (packInt (s.apply n))) key =
        some (packInt (s.apply n)) := fetch_store_same _ _ _
    exact ⟨_, me', bdb_step behind hbdb hone hlt, hcount, hbdb', (hsim.written key).trans hm', ih hnext hbdb' hsim hm' hrest⟩

end

/-- Three tables that hold a counter agree on it, step after step, exactly when it is never counted down. -/
theorem agreeRun_iff (behind : Bytes) (outbuf4 : UInt8) (key : Bytes) (steps : List CountStep) (n : ℕ) (c : Counters)
    (m : FlatDb) (hlt : n < 2 ^ 32) (hserver : c.server key = some (packInt n))
    (hbdb : rdfstoreFlatStoreFetch c.bdb key = some (packInt n)) (hcached : Simulates c.cached m)
    (hm : rdfstoreFlatStoreFetch m key = some (packInt n)) (hrange : StaysInRange steps n) :
    AgreeRun behind outbuf4 key steps n c ↔ CountStep.dec ∉ steps := by
  induction steps generalizing n c m with
  | nil => simp [AgreeRun]
  | cons s steps ih =>
    cases s with
    | dec =>
      refine iff_of_false ?_ (by simp)
      rintro ⟨bdb, cached, -, hv2, -⟩
      have hlen := server_dec behind outbuf4 hserver
      rw [show (doPackdec behind outbuf4 c.server key).1.v2 = packInt (n - 1) from hv2, length_packInt] at hlen
      cases hlen
    | inc =>
      obtain ⟨hnext, hrest⟩ := hrange
      have hone : StaysInRange [.inc] n := ⟨hnext, trivial⟩
      obtain ⟨me, hcount, hsim⟩ := cached_step key hcached hm hone hlt
      have hstep := bdb_step behind hbdb hone hlt
      have hreply := server_inc behind hserver
      have hbdb' : rdfstoreFlatStoreFetch (rdfstoreFlatStoreStore c.bdb key (packInt (n + 1))) key =
          some (packInt (n + 1)) := fetch_store_same _ _ _
      have hm' : rdfstoreFlatStoreFetch (rdfstoreFlatStoreStore m key (packInt (n + 1))) key =
          some (packInt (n + 1)) := fetch_store_same _ _ _
      have hserver' : Function.update c.server key (some (packInt (n + 1))) key = some (packInt (n + 1)) :=
        Function.update_self _ _ _
      have hrun := ih (n + 1) ⟨Function.update c.server key (some (packInt (n + 1))),
        rdfstoreFlatStoreStore c.bdb key (packInt (n + 1)), me⟩ _ hnext hserver' hbdb' hsim hm' hrest
      have hmem : CountStep.dec ∉ CountStep.inc :: steps ↔ CountStep.dec ∉ steps := by simp
      rw [hmem, ← hrun]
      constructor
      · rintro ⟨bdb, cached, -, -, hb, hc, -, hagree⟩
        rw [hstep] at hb
        rw [hcount] at hc
        cases hb
        cases hc
        rw [show CountStep.inc.server behind outbuf4 c.server key = _ from hreply] at hagree
        exact hagree
      · intro hagree
        refine ⟨_, _, ?_, ?_, hstep, hcount, ?_, ?_⟩
        · rw [show CountStep.inc.server behind outbuf4 c.server key = _ from hreply]
        · rw [show CountStep.inc.server behind outbuf4 c.server key = _ from hreply]
          rfl
        · rw [show CountStep.inc.server behind outbuf4 c.server key = _ from hreply]
          exact Counters.hold hsim _ hserver' hbdb' hm'
        · rw [show CountStep.inc.server behind outbuf4 c.server key = _ from hreply]
          exact hagree

def counterTable (n : ℕ) : FlatDb := rdfstoreFlatStoreStore ∅ [1] (packInt n)

/-- Three tables with a counter under one key. -/
def threeCounters (n : ℕ) : Counters :=
  ⟨fun key => if key = [1] then some (packInt n) else none, counterTable n, backendCachingOpen 0 (counterTable n)⟩

theorem fetch_counterTable (n : ℕ) : rdfstoreFlatStoreFetch (counterTable n) [1] = some (packInt n) :=
  fetch_store_same _ _ _

theorem agreeRun_seven : AgreeRun [] 0 [1] [.inc, .inc] 7 (threeCounters 7) ↔ CountStep.dec ∉ [CountStep.inc, .inc] :=
  agreeRun_iff [] 0 [1] [.inc, .inc] 7 (threeCounters 7) (counterTable 7) (by decide) rfl (fetch_counterTable 7)
    (simulates_open 0 _) (fetch_counterTable 7) ⟨by decide, by decide, trivial⟩

/-- A counter of one is counted down: the server stores and returns five bytes. -/
theorem agreeRun_not :
    StaysInRange [.dec] 1 ∧ (threeCounters 1).server [1] = some (packInt 1) ∧
      (doPackdec [] 0 (threeCounters 1).server [1]).1.v2 = [0, 0, 0, 0, 0] ∧
      ¬ AgreeRun [] 0 [1] [.dec] 1 (threeCounters 1) := by
  refine ⟨⟨by decide, trivial⟩, rfl, by decide, ?_⟩
  rintro ⟨bdb, cached, -, hv2, -⟩
  have hlen := congrArg List.length hv2
  exact absurd hlen (by decide)

end RdfStore
