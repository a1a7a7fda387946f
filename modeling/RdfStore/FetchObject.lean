import RdfStore.Lib.LimitedVisit
import RdfStore.IndexTables
import RdfStore.StatementRecord

/-!
# Everything about a resource (`rdfstore_fetch_object`)

The statements about a resource are fetched, the bNodes among their objects
followed recursively, and only then are the statements added to the results: at
most `RDFSTORE_MAX_FETCH_OBJECT_DEEPNESS` levels down, and skipping what is in
the results already.  The store keeps its tables.  Over the ids in the subjects
table the recursion is the visit of `LimitedVisit`.

    ids of the results = visit (entries under a key) (key of a bNode object) 20 (key of the resource)
                                                                (rdfstoreFetchObject_spec)
-/

namespace RdfStore

open ByteMem LimitedVisit

/-! ## The objects of an iterator -/

/-- `rdfstore_iterator_each_object` behind `stCounter` statements: the object and the position
after it, `none` for NULL. -/
def rdfstoreIteratorEachObject (it : Iterator) (store : Store) (stCounter pos : Nat) : Option (Node × Nat) :=
  if stCounter < it.size then
    let pos := rdfstoreBitsGetfirstsetafter it.idsSize it.ids pos
    if pos < it.idsSize * 8 then
      ((rdfstoreIteratorFetchStatement it store pos).bind (·.object)).map fun object => (object, pos + 1)
    else none
  else none

/-- A node of type 2. -/
def Node.asBnode : Node → Option Resource
  | .resource r => if r.bnode then some r else none
  | .literal _ => none

/-! ## The recursion -/

/-- `RDFSTORE_MAX_FETCH_OBJECT_DEEPNESS` -/
def maxFetchObjectDeepness : Nat := 20

/-- What the recursion works on: the store and the main results. -/
structure Fetching where
  me : Store
  out : Iterator

/-- The scan of the objects; it ends with `hasnext`, at the latest after `size` rounds. -/
def scanObjects (recurse : Resource → Fetching → Fetching) (it : Iterator) :
    Nat → Nat → Nat → Fetching → Fetching
  | 0, _, _, s => s
  | fuel + 1, stCounter, pos, s =>
    match rdfstoreIteratorEachObject it s.me stCounter pos with
    | none => s
    | some (object, pos) =>
      let s := match object.asBnode with
        | some r => recurse r s
        | none => s
      scanObjects recurse it fuel (stCounter + 1) pos s

section

variable (ext : Externals)

/-- The AND of the context constraint into `me->bits_decode`, copied back. -/
def constrain (context : Option (Nat × Buf)) (idsSize : Nat) (ids bitsDecode : Buf) : Nat × Buf × Buf :=
  match context with
  | some (size, bits) =>
    if 0 < size then
      let (idsSize, bitsDecode) := rdfstoreBitsAnd idsSize ids size bits bitsDecode
      (idsSize, copyBytes idsSize bitsDecode ids, bitsDecode)
    else (idsSize, ids, bitsDecode)
  | none => (idsSize, ids, bitsDecode)

/-- The processed ones are added to the main results, through `me->bits_decode`. -/
def Fetching.add (s : Fetching) (results : Iterator) : Fetching :=
  let (idsSize, bitsDecode) :=
    rdfstoreBitsOr s.out.idsSize s.out.ids results.idsSize results.ids s.me.bitsDecode
  let ids := copyBytes idsSize bitsDecode s.out.ids
  ⟨{ s.me with bitsDecode }, ⟨ids, idsSize, countBits idsSize ids⟩⟩

/-- The iterator over the statements about a resource that are not visited yet. -/
def subjectResults (context : Option (Nat × Buf)) (resource : Resource) (s : Fetching) : Iterator × Fetching :=
  let (outsize, bitsDecode) := indexFetch ext s.me .subjects (nodeKey ext (.resource resource))
  -- set in subjects but not set in out
  let (idsSize, ids) := rdfstoreBitsExor outsize bitsDecode s.out.idsSize s.out.ids fun _ => 0
  let (idsSize, ids, bitsDecode) := constrain context idsSize ids bitsDecode
  let idsSize := rdfstoreBitsShorten idsSize ids
  (⟨ids, idsSize, countBits idsSize ids⟩, { s with me := { s.me with bitsDecode } })

/-- `_rdfstore_recursive_fetch_object` with `left` levels left. -/
def recursiveFetchObject (context : Option (Nat × Buf)) : Nat → Resource → Fetching → Fetching
  | 0, _, s => s
  | left + 1, resource, s =>
    let (results, s) := subjectResults ext context resource s
    (scanObjects (recursiveFetchObject context left) results (results.size + 1) 0 0 s).add results

/-- The results, and the store, the resource and the context afterwards. -/
structure FetchedObject where
  results : Iterator
  me : Store
  resource : Resource
  givenContext : Option Resource

/-- `rdfstore_fetch_object`; `none` is NULL. -/
def rdfstoreFetchObject (me : Store) (resource : Option Node) (givenContext : Option Resource) :
    Option FetchedObject :=
  match resource with
  | some (.resource r) =>
    if r.identifier.isSome && identified givenContext then
      match givenContext with
      | none =>
        let s := recursiveFetchObject ext none maxFetchObjectDeepness r ⟨me, Iterator.empty⟩
        some ⟨s.out, s.me, r.cacheHash ext, none⟩
      | some c =>
        let (contextOutsize, bitsDecode) := indexFetch ext me .contexts (nodeKey ext (.resource c))
        let me := { me with bitsDecode }
        if contextOutsize = 0 then some ⟨Iterator.empty, me, r, some (c.cacheHash ext)⟩
        else
          let bits := copyBytes contextOutsize bitsDecode fun _ => 0
          let s := recursiveFetchObject ext (some (contextOutsize, bits)) maxFetchObjectDeepness r
            ⟨me, Iterator.empty⟩
          some ⟨s.out, s.me, r.cacheHash ext, some (c.cacheHash ext)⟩
    else none
  | _ => none

/-! ## What it visits -/

def Iterator.found (it : Iterator) : Finset Nat := ones it.idsSize it.ids

/-- The object of the statement under an id. -/
def storedObject (me : Store) (i : Nat) : Option Node :=
  ((rdfstoreFlatStoreFetch me.nodes (packInt i)).bind fetchRecord).bind (·.object)

/-- The key of the bNode a statement leads to. -/
def bnodeKey (me : Store) (i : Nat) : Option Bytes :=
  ((storedObject me i).bind Node.asBnode).map fun r => nodeKey ext (.resource r)

/-- The ids a context bitmap leaves. -/
def inBitmap (context : Option (Nat × Buf)) (s : Finset Nat) : Finset Nat :=
  match context with
  | some (size, bits) => if 0 < size then s ∩ ones size bits else s
  | none => s

/-- The ids under a subject key in a context. -/
def subjectIds (me : Store) (context : Option Resource) (key : Bytes) : Finset Nat :=
  match context with
  | some c => ids ext me .subjects key ∩ ids ext me .contexts (nodeKey ext (.resource c))
  | none => ids ext me .subjects key

/-- The statements in the subjects table can be read. -/
def Readable (me : Store) : Prop := ∀ key, ∀ i ∈ ids ext me .subjects key, (storedObject me i).isSome

/-- At work on a store, of which only the buffer changes. -/
def Fetching.On (me : Store) (s : Fetching) : Prop := ∃ b, s.me = { me with bitsDecode := b }

variable {ext}

theorem Fetching.On.nodes {me : Store} {s : Fetching} (h : s.On me) : s.me.nodes = me.nodes := by
  obtain ⟨b, hb⟩ := h
  rw [hb]

theorem Fetching.On.index {me : Store} {s : Fetching} (h : s.On me) : s.me.index = me.index := by
  obtain ⟨b, hb⟩ := h
  rw [hb]

theorem ones_indexFetch (me : Store) (t : Index) (k : Bytes) :
    ones (indexFetch ext me t k).1 (indexFetch ext me t k).2 = ids ext me t k := by
  unfold indexFetch ids
  cases rdfstoreFlatStoreFetch (me.index t) k with
  | none => exact ones_zero _
  | some data => exact ones_overlay _ _

theorem ones_constrain (context : Option (Nat × Buf)) (idsSize : Nat) (ids bitsDecode : Buf) :
    ones (constrain context idsSize ids bitsDecode).1 (constrain context idsSize ids bitsDecode).2.1 =
      inBitmap context (ones idsSize ids) := by
  unfold constrain inBitmap
  cases context with
  | none => rfl
  | some context =>
    obtain ⟨size, bits⟩ := context
    by_cases hsize : 0 < size
    · simp only [if_pos hsize, ones_copyBytes, ones_rdfstoreBitsAnd]
    · simp only [if_neg hsize]

theorem inBitmap_sdiff (context : Option (Nat × Buf)) (s out : Finset Nat) :
    inBitmap context (s \ out) = inBitmap context s \ out := by
  unfold inBitmap
  cases context with
  | none => rfl
  | some context =>
    obtain ⟨size, bits⟩ := context
    by_cases hsize : 0 < size
    · simp only [if_pos hsize]
      exact Finset.sdiff_inter_right_comm s out _
    · simp only [if_neg hsize]

theorem Fetching.found_add (s : Fetching) (results : Iterator) :
    (s.add results).out.found = s.out.found ∪ results.found := by
  simp only [Fetching.add, Iterator.found, ones_copyBytes, ones_rdfstoreBitsOr]

theorem Fetching.size_add (s : Fetching) (results : Iterator) :
    (s.add results).out.size = (s.add results).out.found.card := countBits_eq _ _

theorem Fetching.On.add {me : Store} {s : Fetching} (h : s.On me) (results : Iterator) :
    (s.add results).On me := by
  obtain ⟨b, hb⟩ := h
  exact ⟨_, by rw [Fetching.add, hb]⟩

/-- With ids left the next object is that of the first of them. -/
theorem rdfstoreIteratorEachObject_eq {it : Iterator} (hsize : it.size = it.found.card) {store : Store}
    (hread : ∀ i ∈ it.found, (storedObject store i).isSome) {stCounter pos : Nat}
    (hleft : stCounter + (it.found.filter (pos ≤ ·)).card = it.size) :
    (it.found.filter (pos ≤ ·) = ∅ ∧ rdfstoreIteratorEachObject it store stCounter pos = none) ∨
      ∃ p object, storedObject store p = some object ∧
        rdfstoreIteratorEachObject it store stCounter pos = some (object, p + 1) ∧
        p ∉ it.found.filter (p + 1 ≤ ·) ∧
        it.found.filter (pos ≤ ·) = insert p (it.found.filter (p + 1 ≤ ·)) := by
  obtain ⟨hin, hout⟩ := rdfstoreBitsGetfirstsetafter_spec it.idsSize it.ids pos
  unfold rdfstoreIteratorEachObject
  generalize rdfstoreBitsGetfirstsetafter it.idsSize it.ids pos = p at hin hout
  by_cases hp : p < it.idsSize * 8
  · right
    obtain ⟨hmem, hle, hfirst⟩ := hin hp
    obtain ⟨object, hobject⟩ := Option.isSome_iff_exists.1 (hread p hmem)
    have hsplit : it.found.filter (pos ≤ ·) = insert p (it.found.filter (p + 1 ≤ ·)) :=
      filter_ones_eq_insert hmem hle hfirst
    have hnot : p ∉ it.found.filter (p + 1 ≤ ·) := by simp
    rw [hsplit, Finset.card_insert_of_notMem hnot] at hleft
    have hpos : it.size ≠ 0 := by omega
    refine ⟨p, object, hobject, ?_, hnot, hsplit⟩
    rw [if_pos (by omega)]
    simp only [if_pos hp, rdfstoreIteratorFetchStatement, if_neg hpos]
    exact congrArg (Option.map fun object => (object, p + 1)) hobject
  · left
    have hnone : it.found.filter (pos ≤ ·) = ∅ := by
      rw [Finset.filter_eq_empty_iff]
      intro q hq
      have := hout (by omega) q hq
      omega
    refine ⟨hnone, ?_⟩
    rw [hnone, Finset.card_empty] at hleft
    rw [if_neg (by omega)]

/-- The scan follows the ids in their order. -/
theorem scanObjects_spec {me : Store} {recurse : Resource → Fetching → Fetching}
    {v : Bytes → Finset Nat → Finset Nat}
    (hrecurse : ∀ r s, s.On me → (recurse r s).On me ∧
      (recurse r s).out.found = v (nodeKey ext (.resource r)) s.out.found)
    {it : Iterator} (hsize : it.size = it.found.card)
    (hread : ∀ i ∈ it.found, (storedObject me i).isSome) (fuel stCounter pos : Nat) (s : Fetching)
    (hs : s.On me) (hfuel : it.size < stCounter + fuel)
    (hleft : stCounter + (it.found.filter (pos ≤ ·)).card = it.size) :
    (scanObjects recurse it fuel stCounter pos s).On me ∧
      (scanObjects recurse it fuel stCounter pos s).out.found =
        (it.found.filter (pos ≤ ·)).sort.foldl (follow (bnodeKey ext me) v) s.out.found := by
  induction fuel generalizing stCounter pos s with
  | zero => omega
  | succ fuel ih =>
    have hstored : storedObject s.me = storedObject me := by
      funext i
      rw [storedObject, storedObject, hs.nodes]
    rw [scanObjects]
    rcases rdfstoreIteratorEachObject_eq hsize (hstored ▸ hread) hleft with
      ⟨hnone, hnext⟩ | ⟨p, object, hobject, hnext, hnot, hsplit⟩
    · simp only [hnext, hnone, Finset.sort_empty, List.foldl_nil, and_true]
      exact hs
    · have hfirst : ∀ q ∈ it.found.filter (p + 1 ≤ ·), p ≤ q := fun q hq => by
        have := (Finset.mem_filter.1 hq).2
        omega
      rw [hsplit, Finset.card_insert_of_notMem hnot] at hleft
      rw [hstored] at hobject
      simp only [hnext, hsplit, Finset.sort_insert _ hfirst hnot, List.foldl_cons]
      have hkey : bnodeKey ext me p = object.asBnode.map fun r => nodeKey ext (.resource r) := by
        rw [bnodeKey, hobject, Option.bind_some]
      cases hb : object.asBnode with
      | none =>
        rw [hb, Option.map_none] at hkey
        simp only [follow, hkey]
        exact ih (stCounter + 1) (p + 1) s hs (by omega) (by omega)
      | some r =>
        rw [hb, Option.map_some] at hkey
        obtain ⟨hon, hfound⟩ := hrecurse r s hs
        simp only [follow, hkey]
        rw [← hfound]
        exact ih (stCounter + 1) (p + 1) (recurse r s) hon (by omega) (by omega)

theorem inBitmap_subset (context : Option (Nat × Buf)) (s : Finset Nat) : inBitmap context s ⊆ s := by
  unfold inBitmap
  split
  · split
    · exact Finset.inter_subset_left
    · exact subset_rfl
  · exact subset_rfl

theorem subjectResults_spec {me : Store} (context : Option (Nat × Buf)) (r : Resource) {s : Fetching}
    (hs : s.On me) : (subjectResults ext context r s).1.found =
        inBitmap context (ids ext me .subjects (nodeKey ext (.resource r))) \ s.out.found ∧
      (subjectResults ext context r s).1.size = (subjectResults ext context r s).1.found.card ∧
      (subjectResults ext context r s).2.On me ∧ (subjectResults ext context r s).2.out = s.out := by
  have hids : ids ext s.me .subjects (nodeKey ext (.resource r)) =
      ids ext me .subjects (nodeKey ext (.resource r)) := ids_congr hs.index _ _
  obtain ⟨b, hb⟩ := hs
  refine ⟨?_, countBits_eq _ _, ⟨_, by rw [subjectResults, hb]⟩, rfl⟩
  simp only [subjectResults, Iterator.found]
  rw [ones_rdfstoreBitsShorten, ones_constrain, ones_rdfstoreBitsExor, ones_indexFetch, hids, inBitmap_sdiff]

/-- The recursion is a visit. -/
theorem recursiveFetchObject_spec {me : Store} (hread : Readable ext me) (context : Option (Nat × Buf))
    (left : Nat) (r : Resource) (s : Fetching) (hs : s.On me) :
    (recursiveFetchObject ext context left r s).On me ∧
      (recursiveFetchObject ext context left r s).out.found =
        visit (fun key => inBitmap context (ids ext me .subjects key)) (bnodeKey ext me) left
          (nodeKey ext (.resource r)) s.out.found := by
  induction left generalizing r s with
  | zero => exact ⟨hs, rfl⟩
  | succ left ih =>
    obtain ⟨hresults, hsize, hon, hout⟩ := subjectResults_spec context r hs
    rw [recursiveFetchObject]
    generalize subjectResults ext context r s = fetched at hresults hsize hon hout
    obtain ⟨results, s'⟩ := fetched
    simp only at hresults hsize hon hout ⊢
    have hmem : ∀ i ∈ results.found, (storedObject me i).isSome := by
      intro i hi
      rw [hresults] at hi
      exact hread (nodeKey ext (.resource r)) i (inBitmap_subset context _ (Finset.mem_sdiff.1 hi).1)
    have hall : results.found.filter (0 ≤ ·) = results.found :=
      Finset.filter_true_of_mem fun i _ => Nat.zero_le i
    obtain ⟨hscan, hfound⟩ := scanObjects_spec ih hsize hmem (results.size + 1) 0 0 s' hon (by omega)
      (by rw [hall, hsize, Nat.zero_add])
    refine ⟨hscan.add results, ?_⟩
    rw [Fetching.found_add, hfound, hall, hresults, hout]
    rfl

/-- The results of the recursion are counted. -/
theorem recursiveFetchObject_size (context : Option (Nat × Buf)) {left : Nat} (hleft : 0 < left) (r : Resource)
    (s : Fetching) :
    (recursiveFetchObject ext context left r s).out.size = (recursiveFetchObject ext context left r s).out.found.card := by
  obtain ⟨left, rfl⟩ := Nat.exists_eq_add_one_of_ne_zero hleft.ne'
  rw [recursiveFetchObject]
  exact Fetching.size_add _ _

theorem maxFetchObjectDeepness_pos : 0 < maxFetchObjectDeepness := by decide

/-- The fetch is a visit from the resource on, and changes the decoding buffer only. -/
theorem rdfstoreFetchObject_spec {me : Store} (hread : Readable ext me) {r : Resource}
    (hr : r.identifier.isSome) {context : Option Resource} (hc : identified context) :
    ∃ fetched, rdfstoreFetchObject ext me (some (.resource r)) context = some fetched ∧
      fetched.results.found = visit (subjectIds ext me context) (bnodeKey ext me) maxFetchObjectDeepness
        (nodeKey ext (.resource r)) ∅ ∧
      fetched.results.size = fetched.results.found.card ∧
      ∃ b, fetched.me = { me with bitsDecode := b } := by
  have hempty : Iterator.empty.found = ∅ := ones_zero _
  unfold rdfstoreFetchObject
  simp only [hr, hc, Bool.and_self, if_true]
  cases context with
  | none =>
    have hon : Fetching.On me ⟨me, Iterator.empty⟩ := ⟨me.bitsDecode, rfl⟩
    obtain ⟨hme, hfound⟩ := recursiveFetchObject_spec hread none maxFetchObjectDeepness r _ hon
    have hsize := @recursiveFetchObject_size ext none _ maxFetchObjectDeepness_pos r ⟨me, Iterator.empty⟩
    rw [hempty] at hfound
    -- what the call left, not how it came about
    generalize recursiveFetchObject ext none maxFetchObjectDeepness r ⟨me, Iterator.empty⟩ = s at hme hfound hsize ⊢
    exact ⟨_, rfl, hfound, hsize, hme⟩
  | some c =>
    have hfetch := @ones_indexFetch ext me .contexts (nodeKey ext (.resource c))
    simp only
    generalize indexFetch ext me .contexts (nodeKey ext (.resource c)) = fetched at hfetch
    obtain ⟨contextOutsize, bitsDecode⟩ := fetched
    simp only at hfetch ⊢
    by_cases hsize : contextOutsize = 0
    · -- no entry for the context: nothing is visited
      rw [if_pos hsize]
      refine ⟨_, rfl, ?_, by rw [hempty]; rfl, bitsDecode, rfl⟩
      rw [hsize, ones_zero] at hfetch
      have hnone : ∀ key, subjectIds ext me (some c) key = ∅ := fun key => by
        rw [subjectIds, ← hfetch, Finset.inter_empty]
      rw [hempty, eq_comm, Finset.eq_empty_iff_forall_notMem]
      intro i hi
      rcases mem_visit hi with hi | hi
      · exact absurd hi (Finset.notMem_empty i)
      · cases hi with
        | entry hi => exact absurd (hnone _ ▸ hi) (Finset.notMem_empty i)
        | next _ _ hi => exact absurd (hnone _ ▸ hi) (Finset.notMem_empty i)
    · rw [if_neg hsize]
      have hon : Fetching.On me ⟨{ me with bitsDecode }, Iterator.empty⟩ := ⟨bitsDecode, rfl⟩
      obtain ⟨hme, hfound⟩ := recursiveFetchObject_spec hread
        (some (contextOutsize, copyBytes contextOutsize bitsDecode fun _ => 0)) maxFetchObjectDeepness r _ hon
      have hentries : (fun key => inBitmap (some (contextOutsize, copyBytes contextOutsize bitsDecode fun _ => 0))
          (ids ext me .subjects key)) = subjectIds ext me (some c) := by
        funext key
        simp only [inBitmap, if_pos (Nat.pos_of_ne_zero hsize), ones_copyBytes, hfetch, subjectIds]
      have hsize := @recursiveFetchObject_size ext (some (contextOutsize, copyBytes contextOutsize bitsDecode fun _ => 0))
        _ maxFetchObjectDeepness_pos r ⟨{ me with bitsDecode }, Iterator.empty⟩
      rw [hempty, hentries] at hfound
      generalize recursiveFetchObject ext (some (contextOutsize, copyBytes contextOutsize bitsDecode fun _ => 0))
        maxFetchObjectDeepness r ⟨{ me with bitsDecode }, Iterator.empty⟩ = s at hme hfound hsize ⊢
      exact ⟨_, rfl, hfound, hsize, hme⟩

end

end RdfStore
