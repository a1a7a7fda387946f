import RdfStore.FlatStore
import RdfStore.Lib.Ring
import RdfStore.Lib.SortedIndex

/-!
# The caching store (`backend_caching_store.c`)

A flat table may be opened with a write-back cache before the real store.  Up to
`maxcache` keys are cached, each in a cell of a circular doubly linked list whose
head is the cell used last; `idx` lists the cells sorted by key.  Memory is
always there, and a NULL pointer or a failed `assert` is `none`.
-/

namespace RdfStore

open ByteMem Ring SortedIndex

/-! ## The real store -/

/-- `rdfstore_flat_store_error_t`, as far as the cache tells the errors apart. -/
inductive FlatStoreError
  | keyExist
  | notFound
  | other (code : Int)
  deriving DecidableEq

/-- `backend_store_t`: what the calls answer and leave behind. -/
structure Backend (σ : Type) where
  fetch : σ → Bytes → Except FlatStoreError Bytes × σ
  store : σ → Bytes → Bytes → Except FlatStoreError Unit × σ
  exist : σ → Bytes → Except FlatStoreError Unit × σ
  delete : σ → Bytes → Except FlatStoreError Unit × σ
  sync : σ → Except FlatStoreError Unit × σ

/-- `backend_store_t` with the functions that walk over the keys; `close` leaves the table as it is
found when it is opened again. -/
structure CursorBackend (σ : Type) extends Backend σ where
  first : σ → Except FlatStoreError Bytes × σ
  next : σ → Bytes → Except FlatStoreError Bytes × σ
  fromKey : σ → Bytes → Except FlatStoreError Bytes × σ
  close : σ → Except FlatStoreError Unit × σ

/-! ## Cells and index -/

/-- `cstate` -/
inductive CState
  | undef
  | exist
  | changed
  | notFound
  | deleted
  deriving DecidableEq

/-- `data_t` -/
structure CacheData where
  key : Bytes
  val : Bytes
  state : CState
  deriving DecidableEq

/-- Where `malloc` put a `cdll_t`. -/
abbrev Addr := Nat

/-- `caching_store_t`; `idx` is the part in use, so that `cached` is its length, and `brk` is where
`malloc` puts the next cell. -/
structure CachingStore where
  maxcache : Nat
  idx : List Addr
  head : Option Addr
  cells : Heap Addr CacheData
  brk : Addr

/-- `backend_caching_t`: the cache and the state of the real store. -/
structure BackendCaching (σ : Type) where
  cache : CachingStore
  inst : σ

def defaultMaxCache : Nat := 1000

/-- `init_cachingstore` -/
def initCachingstore (maxCacheNelems : Nat) : CachingStore where
  maxcache := if maxCacheNelems = 0 then defaultMaxCache else maxCacheNelems
  idx := []
  head := none
  cells := fun _ => ⟨⟨[], [], .undef⟩, 0, 0⟩
  brk := 0

/-- `memcmp` of the first `n` bytes. -/
def memcmp : Nat → Bytes → Bytes → Ordering
  | n + 1, a :: k, b :: l => if a < b then .lt else if b < a then .gt else memcmp n k l
  | _, _, _ => .eq

/-- `_cmp` -/
def cacheCmp (a b : CacheData) : Ordering :=
  match memcmp (min a.key.length b.key.length) a.key b.key with
  | .eq => if a.key.length < b.key.length then .lt else if b.key.length < a.key.length then .gt else .eq
  | c => c

/-- The search in `idx`, with `cmp_key`. -/
def CachingStore.lookup (me : CachingStore) (data : CacheData) : Option Addr :=
  bsearch (fun pair => cacheCmp data (me.cells pair).data) me.idx

/-- The sorting of `idx`, with `cmp_pair`. -/
def CachingStore.sort (me : CachingStore) : CachingStore :=
  if 1 < me.idx.length then
    { me with idx := qsort (fun a b => cacheCmp (me.cells a).data (me.cells b).data) me.idx }
  else me

def CachingStore.setData (me : CachingStore) (i : Addr) (data : CacheData) : CachingStore :=
  { me with cells := Ring.setData me.cells i data }

/-- A cell that is in no list becomes the head. -/
def CachingStore.pushFront (me : CachingStore) (i : Addr) : CachingStore :=
  match me.head with
  | some head => { me with cells := linkBefore me.cells head i, head := some i }
  | none => { me with cells := setPrev (setNxt me.cells i i) i i, head := some i }

/-- A cell of the list becomes the head. -/
def CachingStore.toFront (me : CachingStore) (i : Addr) : CachingStore :=
  match me.head with
  | some head =>
    if head = i then me else { me with cells := linkBefore (unlink me.cells i) head i, head := some i }
  | none => me

section

variable {σ : Type} (b : Backend σ)

/-! ## The functions specific to the data -/

/-- `_fetch`; a key that is not found is cached as such. -/
def cacheFetch (inst : σ) (data : CacheData) : Except FlatStoreError Unit × CacheData × σ :=
  match b.fetch inst data.key with
  | (.ok val, inst) => (.ok (), { data with val, state := .exist }, inst)
  | (.error .notFound, inst) => (.ok (), { data with state := .notFound }, inst)
  | (.error e, inst) => (.error e, data, inst)

/-- `_store` -/
def cacheStore (inst : σ) (data : CacheData) : Except FlatStoreError Unit × σ :=
  if data.state ≠ .changed then (.ok (), inst)
  else
    match b.store inst data.key data.val with
    | (.error .keyExist, inst) => (.ok (), inst)
    | r => r

/-- `_delete`; the real store is asked at once. -/
def cacheDelete (inst : σ) (data : CacheData) : Except FlatStoreError Unit × CacheData × σ :=
  match b.delete inst data.key with
  | (.error .keyExist, inst) => (.ok (), { data with state := .notFound }, inst)
  | (e, inst) => (e, { data with state := .notFound }, inst)

/-! ## `cachekey` -/

/-- `bc_ops` -/
inductive BcOp
  | read
  | write
  | exist
  | delete
  deriving DecidableEq

/-- The data of a new cell. -/
def newData (op : BcOp) (inst : σ) (data : CacheData) : Except FlatStoreError Unit × CacheData × σ :=
  match op with
  | .write => (.ok (), data, inst)
  | .delete => cacheDelete b inst data
  | .read | .exist => cacheFetch b inst data

/-- The cell for a new key: that of the tail if the cache is full, after its data went to the real
store, else a new one. -/
def newCell (me : BackendCaching σ) : Option (Addr × BackendCaching σ) :=
  let c := me.cache
  if c.maxcache ≤ c.idx.length then do
    let head ← c.head
    let last := (c.cells head).prev
    let head := (c.cells last).nxt
    let cells := setPrev c.cells head (c.cells last).prev
    let cells := setNxt cells (cells head).prev head
    let c := { c with head := some head, cells }
    let data := (c.cells last).data
    let i ← c.lookup data
    -- what storing the data answers is not looked at
    some (i, ⟨c, (cacheStore b me.inst data).2⟩)
  else some (c.brk, ⟨{ c with idx := c.idx ++ [c.brk], brk := c.brk + 1 }, me.inst⟩)

/-- `cachekey`; the data answered are those of the head. -/
def cachekey (me : BackendCaching σ) (data : CacheData) (op : BcOp) :
    Option (Except FlatStoreError Unit × CacheData × BackendCaching σ) :=
  match me.cache.lookup data with
  | none => do
    let (i, me) ← newCell b me
    let (e, data, inst) := newData b op me.inst data
    some (e, data, ⟨((me.cache.setData i data).pushFront i).sort, inst⟩)
  | some i =>
    let c := me.cache.toFront i
    match op with
    | .write => some (.ok (), data, ⟨c.setData i data, me.inst⟩)
    | .delete =>
      let (e, data, inst) := cacheDelete b me.inst data
      some (e, data, ⟨c.setData i data, inst⟩)
    | .read | .exist => some (.ok (), (c.cells i).data, ⟨c, me.inst⟩)

/-- `purgecache`: every entry goes to the real store, from the head on, and the cache is empty. -/
def purgecache (me : BackendCaching σ) : BackendCaching σ :=
  let c := me.cache
  match c.head with
  | none => me
  | some head =>
    ⟨{ c with head := none, idx := [] },
      traverse c.cells head (fun inst q => (cacheStore b inst (c.cells q).data).2) c.idx.length head me.inst⟩

/-! ## The operations -/

/-- `backend_caching_open` over a real store that is open -/
def backendCachingOpen (maxCacheNelems : Nat) (inst : σ) : BackendCaching σ :=
  ⟨initCachingstore maxCacheNelems, inst⟩

def backendCachingFetch (me : BackendCaching σ) (key : Bytes) :
    Option (Except FlatStoreError Bytes × BackendCaching σ) := do
  let (e, out, me) ← cachekey b me ⟨key, [], .undef⟩ .read
  match e with
  | .error e => some (.error e, me)
  | .ok () => some (if out.state = .notFound then .error .notFound else .ok out.val, me)

def backendCachingStore (me : BackendCaching σ) (key val : Bytes) :
    Option (Except FlatStoreError Unit × BackendCaching σ) := do
  let (e, _, me) ← cachekey b me ⟨key, val, .changed⟩ .write
  some (e, me)

def backendCachingExists (me : BackendCaching σ) (key : Bytes) :
    Option (Except FlatStoreError Unit × BackendCaching σ) := do
  let (e, d, me) ← cachekey b me ⟨key, [], .undef⟩ .exist
  match e with
  | .error e => some (.error e, me)
  | .ok () => some (if d.state = .exist ∨ d.state = .changed then .ok () else .error .notFound, me)

def backendCachingDelete (me : BackendCaching σ) (key : Bytes) :
    Option (Except FlatStoreError Unit × BackendCaching σ) := do
  let (e, _, me) ← cachekey b me ⟨key, [], .undef⟩ .delete
  some (e, me)

def backendCachingSync (me : BackendCaching σ) : Except FlatStoreError Unit × BackendCaching σ :=
  let me := purgecache b me
  let (e, inst) := b.sync me.inst
  (e, { me with inst })

/-- What `backend_caching_inc` and `backend_caching_dec` share: the counter in the first four bytes of
the value is read, stepped and written; there is no counter in fewer bytes. -/
def backendCachingCount (step : Nat → Nat) (me : BackendCaching σ) (key : Bytes) :
    Option (Except FlatStoreError Bytes × BackendCaching σ) := do
  let (r, me) ← backendCachingFetch b me key
  match r with
  | .error e => some (.error e, me)
  | .ok val =>
    if val.length < 4 then none
    else do
      let newValue := packInt (step (unpackInt val)) ++ val.drop 4
      let (e, me) ← backendCachingStore b me key newValue
      some (e.map fun _ => newValue, me)

def backendCachingInc (me : BackendCaching σ) (key : Bytes) : Option (Except FlatStoreError Bytes × BackendCaching σ) :=
  backendCachingCount b (· + 1) me key

/-- `l--` on 32 bits. -/
def backendCachingDec (me : BackendCaching σ) (key : Bytes) : Option (Except FlatStoreError Bytes × BackendCaching σ) :=
  backendCachingCount b (· + (2 ^ 32 - 1)) me key

/-- `backend_caching_fetch_compressed`: the real store is asked, and what it has is decoded. -/
def backendCachingFetchCompressed (decode : Bytes → Bytes) (me : BackendCaching σ) (key : Bytes) :
    Except FlatStoreError Bytes × BackendCaching σ :=
  let (val, inst) := b.fetch me.inst key
  (val.map decode, { me with inst })

/-- `backend_caching_store_compressed`: the encoded value goes to the real store. -/
def backendCachingStoreCompressed (encode : Bytes → Bytes) (me : BackendCaching σ) (key bits : Bytes) :
    Except FlatStoreError Unit × BackendCaching σ :=
  let (e, inst) := b.store me.inst key (encode bits)
  (e, { me with inst })

end

section

variable {σ : Type} (b : CursorBackend σ)

def backendCachingFirst (me : BackendCaching σ) : Except FlatStoreError Bytes × BackendCaching σ :=
  let me := purgecache b.toBackend me
  let (key, inst) := b.first me.inst
  (key, { me with inst })

def backendCachingNext (me : BackendCaching σ) (previousKey : Bytes) :
    Except FlatStoreError Bytes × BackendCaching σ :=
  let me := purgecache b.toBackend me
  let (key, inst) := b.next me.inst previousKey
  (key, { me with inst })

def backendCachingFrom (me : BackendCaching σ) (closestKey : Bytes) :
    Except FlatStoreError Bytes × BackendCaching σ :=
  let me := purgecache b.toBackend me
  let (key, inst) := b.fromKey me.inst closestKey
  (key, { me with inst })

def backendCachingClose (me : BackendCaching σ) : Except FlatStoreError Unit × BackendCaching σ :=
  let me := purgecache b.toBackend me
  let (e, inst) := b.close me.inst
  (e, { me with inst })

end

end RdfStore
