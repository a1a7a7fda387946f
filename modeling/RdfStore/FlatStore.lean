import Mathlib.Data.Finmap
import RdfStore.Types

/-!
# Flat tables (`rdfstore_flat_store.c`) over an error-free backend

Every table of a store is a flat table: byte keys, byte values.  Over a backend
that does not fail a table is a finite map, `store` overwrites, and `fetch` and
`delete` answer `FLAT_STORE_E_NOTFOUND` exactly on absent keys.  Counters and
hash codes are keys of four bytes, most significant first (`packInt`).

    unpackInt (packInt n) = n % 2 ^ 32                          (unpackInt_packInt)
-/

namespace RdfStore

open ByteMem

/-! ## Tables -/

abbrev FlatDb := Finmap fun _ : Bytes => Bytes

/-- `rdfstore_flat_store_fetch`; `none` is `FLAT_STORE_E_NOTFOUND`. -/
def rdfstoreFlatStoreFetch (db : FlatDb) (key : Bytes) : Option Bytes := db.lookup key

/-- `rdfstore_flat_store_exists(..) == 0` -/
def rdfstoreFlatStoreExists (db : FlatDb) (key : Bytes) : Bool := (db.lookup key).isSome

def rdfstoreFlatStoreStore (db : FlatDb) (key value : Bytes) : FlatDb := db.insert key value

/-- `rdfstore_flat_store_delete`; `none` is `FLAT_STORE_E_NOTFOUND`. -/
def rdfstoreFlatStoreDelete (db : FlatDb) (key : Bytes) : Option FlatDb :=
  if (db.lookup key).isSome then some (db.erase key) else none

section Laws

variable (db : FlatDb) (key key' value : Bytes)

@[simp] theorem fetch_store_same :
    rdfstoreFlatStoreFetch (rdfstoreFlatStoreStore db key value) key = some value :=
  Finmap.lookup_insert db

theorem fetch_store_of_ne (h : key' ≠ key) :
    rdfstoreFlatStoreFetch (rdfstoreFlatStoreStore db key value) key' = rdfstoreFlatStoreFetch db key' :=
  Finmap.lookup_insert_of_ne db h

@[simp] theorem fetch_empty : rdfstoreFlatStoreFetch ∅ key = none := Finmap.lookup_empty key

theorem exists_eq_isSome : rdfstoreFlatStoreExists db key = (rdfstoreFlatStoreFetch db key).isSome := rfl

theorem delete_of_fetch {v : Bytes} (h : rdfstoreFlatStoreFetch db key = some v) :
    ∃ db', rdfstoreFlatStoreDelete db key = some db' ∧ rdfstoreFlatStoreFetch db' key = none ∧
      ∀ k, k ≠ key → rdfstoreFlatStoreFetch db' k = rdfstoreFlatStoreFetch db k := by
  unfold rdfstoreFlatStoreFetch at h
  refine ⟨db.erase key, by rw [rdfstoreFlatStoreDelete, h]; rfl, Finmap.lookup_erase key db, ?_⟩
  intro k hk
  exact Finmap.lookup_erase_ne hk

theorem delete_of_fetch_none (h : rdfstoreFlatStoreFetch db key = none) :
    rdfstoreFlatStoreDelete db key = none := by
  unfold rdfstoreFlatStoreFetch at h
  rw [rdfstoreFlatStoreDelete, h]
  rfl

theorem exists_store : rdfstoreFlatStoreExists (rdfstoreFlatStoreStore db key value) key' =
    if key' = key then true else rdfstoreFlatStoreExists db key' := by
  rw [exists_eq_isSome, exists_eq_isSome]
  split
  · next h => rw [h, fetch_store_same, Option.isSome_some]
  · next h => rw [fetch_store_of_ne _ _ _ _ h]

theorem exists_delete {db' : FlatDb} (h : rdfstoreFlatStoreDelete db key = some db') :
    rdfstoreFlatStoreExists db' key' = if key' = key then false else rdfstoreFlatStoreExists db key' := by
  cases hv : rdfstoreFlatStoreFetch db key with
  | none => rw [delete_of_fetch_none _ _ hv] at h; cases h
  | some v =>
    obtain ⟨db'', h', hnone, hother⟩ := delete_of_fetch _ _ hv
    rw [h] at h'
    cases h'
    rw [exists_eq_isSome, exists_eq_isSome]
    split
    · next hk => rw [hk, hnone, Option.isSome_none]
    · next hk => rw [hother _ hk]

end Laws

theorem fetch_store (db : FlatDb) (key value k : Bytes) :
    rdfstoreFlatStoreFetch (rdfstoreFlatStoreStore db key value) k =
      if k = key then some value else rdfstoreFlatStoreFetch db k := by
  split
  · next h => rw [h, fetch_store_same]
  · next h => rw [fetch_store_of_ne _ _ _ _ h]

theorem fetch_delete {db db' : FlatDb} {key : Bytes} (h : rdfstoreFlatStoreDelete db key = some db')
    (k : Bytes) : rdfstoreFlatStoreFetch db' k = if k = key then none else rdfstoreFlatStoreFetch db k := by
  cases hv : rdfstoreFlatStoreFetch db key with
  | none => rw [delete_of_fetch_none _ _ hv] at h; cases h
  | some v =>
    obtain ⟨db'', h', hnone, hother⟩ := delete_of_fetch _ _ hv
    rw [h] at h'
    cases h'
    split
    · next hk => rw [hk, hnone]
    · next hk => rw [hother _ hk]

/-! ## Packed integers -/

/-- `packInt`: four bytes in network order. -/
def packInt (n : Nat) : Bytes :=
  [(n / 2 ^ 24).toUInt8, (n / 2 ^ 16).toUInt8, (n / 2 ^ 8).toUInt8, n.toUInt8]

/-- `unpackInt` reads the first four bytes. -/
def unpackInt : Bytes → Nat
  | a :: b :: c :: d :: _ => a.toNat * 2 ^ 24 + b.toNat * 2 ^ 16 + c.toNat * 2 ^ 8 + d.toNat
  | _ => 0

@[simp] theorem length_packInt (n : Nat) : (packInt n).length = 4 := rfl

theorem unpackInt_packInt_append (n : Nat) (l : Bytes) :
    unpackInt (packInt n ++ l) = n % 2 ^ 32 := by
  simp only [packInt, List.cons_append, List.nil_append, unpackInt, Nat.toUInt8, UInt8.toNat_ofNat']
  omega

theorem unpackInt_packInt (n : Nat) : unpackInt (packInt n) = n % 2 ^ 32 := by
  simpa using unpackInt_packInt_append n []

theorem unpackInt_packInt_of_lt {n : Nat} (h : n < 2 ^ 32) : unpackInt (packInt n) = n :=
  (unpackInt_packInt n).trans (Nat.mod_eq_of_lt h)

theorem packInt_inj {m n : Nat} (hm : m < 2 ^ 32) (hn : n < 2 ^ 32) (h : packInt m = packInt n) :
    m = n := by
  rw [← unpackInt_packInt_of_lt hm, ← unpackInt_packInt_of_lt hn, h]

/-- The key of a hash code. -/
def hashKey (h : UInt32) : Bytes := packInt h.toNat

theorem hashKey_inj {a b : UInt32} (h : hashKey a = hashKey b) : a = b :=
  UInt32.toNat_inj.1 (packInt_inj a.toNat_lt b.toNat_lt h)

end RdfStore
