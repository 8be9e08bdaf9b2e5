import Ferm.Lib.KeyedSort
import Ferm.Lib.Monadic
import Ferm.Nft.Values
import Ferm.Nftset
import Mathlib.Data.List.Lex
import Mathlib.Data.Prod.Lex
import Mathlib.Data.String.Basic

/-!
# The order of set elements

The sort of set elements with what it raises: a run of digits that is too long for `int` is not caught while an element is
classified. Where no element has one the sort is canonical: it keeps the elements, leaves the unparsable ones at the end as they
came, and depends on nothing but the elements when there are none of these.
-/

namespace Ferm

/-! ## The order of the keys -/

namespace SortKey

/-- A key as a tuple. -/
def tuple (a : SortKey) : ℕ ×ₗ List ℕ ×ₗ String := toLex (a.rank, toLex (a.natural, a.text))

theorem le_iff_tuple {a b : SortKey} : a.le b ↔ a.tuple ≤ b.tuple := by
  simp only [le, tuple, Prod.Lex.le_iff, ofLex_toLex]

instance : Std.Total le := ⟨fun a b => by simpa only [le_iff_tuple] using le_total a.tuple b.tuple⟩

instance : IsTrans SortKey le := ⟨fun _ _ _ hab hbc => le_iff_tuple.2 ((le_iff_tuple.1 hab).trans (le_iff_tuple.1 hbc))⟩

theorem le_antisymm {a b : SortKey} (hab : a.le b) (hba : b.le a) : a = b := by
  have h : a.tuple = b.tuple := (le_iff_tuple.1 hab).antisymm (le_iff_tuple.1 hba)
  cases a
  cases b
  simpa [tuple] using h

end SortKey

namespace SetOrder

/-! ## The sort and what it raises -/

/-- The class of a dashed token that is an interval. -/
def classifyRange (element : List Char) : Except Raised (Option ElementClass) :=
  match partitionAt '-' element with
  | none => return none
  | some (low, high) =>
    if isAsciiUint low && isAsciiUint high then do
      let lo ← intOf (String.ofList low)
      let hi ← intOf (String.ofList high)
      return some (.interval lo hi)
    else return classifyAddressRange low high

/-- The class of a token that is neither a number nor an interval. -/
def classifyOther (element : String) : ElementClass :=
  match ipNetwork element.toList with
  | some net => .address net
  | none =>
    match NFT_L4PROTO_NUMBER.lookup element with
    | some n => .protoname n
    | none => if isQuotedString element.toList then .quoted else .unparsable

/-- `classify`. -/
def classify (element : String) : Except Raised ElementClass :=
  if isAsciiUint element.toList then do
    let n ← intOf element
    return .number n
  else do
    let range ← classifyRange element.toList
    return range.getD (classifyOther element)

/-- `_sort_key`. -/
def sortKey (index : Nat) (element : String) : Except Raised SortKey := do
  match ← classify element with
  | .unparsable => return ⟨5, [index], ""⟩
  | c => return ⟨c.rank, c.natural, element⟩

/-- `sorted(enumerate(items), key=…)` by the key of each item's element: every key is read before the first comparison. -/
def sortByElement {α : Type} (element : α → String) (items : List α) : Except Raised (List α) := do
  let keyed ← items.zipIdx.mapM fun item => do
    let key ← sortKey item.2 (element item.1)
    return (key, item.1)
  return (keyed.insertionSort fun a b => a.1.le b.1).map Prod.snd

/-- `sort_set_elements`. -/
def sortSetElements (elements : List String) : Except Raised (List String) := sortByElement id elements

/-- `sort_vmap_pairs`. -/
def sortVmapPairs (pairs : List (String × String)) : Except Raised (List (String × String)) := sortByElement Prod.fst pairs

/-- No run of digits of the element is too long to be read. -/
def Convertible (element : String) : Prop :=
  (isAsciiUint element.toList = true → element.toList.length ≤ INT_MAX_STR_DIGITS) ∧
    ∀ low high, partitionAt '-' element.toList = some (low, high) → isAsciiUint low = true → isAsciiUint high = true →
      low.length ≤ INT_MAX_STR_DIGITS ∧ high.length ≤ INT_MAX_STR_DIGITS

theorem not_convertible_replicate {n : Nat} (h : INT_MAX_STR_DIGITS < n) : ¬ Convertible (String.ofList (List.replicate n '1')) := by
  intro hconv
  have hshort := hconv.1
  rw [String.toList_ofList, isAsciiUint, List.all_replicate, List.length_replicate] at hshort
  exact absurd (hshort (by simp; omega)) (Nat.not_le.2 h)

/-- An element that is neither a number, an interval, an address, a protocol name nor quoted. -/
def isUnparsable (element : String) : Bool :=
  match classify element with
  | .ok .unparsable => true
  | _ => false

/-- A sort is canonical on a list: it returns, a permutation of the list with the unparsable elements last in their order, and the
same for every permutation of a list that has none of them. -/
def IsCanonicalOn {α : Type} (sort : List α → Except Raised (List α)) (element : α → String) (items : List α) : Prop :=
  ∃ sorted, sort items = .ok sorted ∧ sorted.Perm items ∧
    (∃ front, sorted = front ++ items.filter (fun a => isUnparsable (element a)) ∧ ∀ a ∈ front, isUnparsable (element a) = false) ∧
    ((∀ a ∈ items, isUnparsable (element a) = false) → ∀ items', items'.Perm items → sort items' = .ok sorted)

/-! ## What is raised -/

theorem classifyRange_eq_ok_iff {element : List Char} {range : Option ElementClass} : classifyRange element = .ok range ↔
    (∀ low high, partitionAt '-' element = some (low, high) → isAsciiUint low = true → isAsciiUint high = true →
      low.length ≤ INT_MAX_STR_DIGITS ∧ high.length ≤ INT_MAX_STR_DIGITS) ∧ range = Ferm.rangeClass element := by
  unfold classifyRange Ferm.rangeClass
  cases hparts : partitionAt '-' element with
  | none => exact Except.return_eq_ok_iff_of nofun
  | some ends =>
    obtain ⟨low, high⟩ := ends
    rw [Option.bind_eq_bind, Option.bind_some]
    simp only [Option.some.injEq, Prod.mk.injEq]
    by_cases huint : (isAsciiUint low && isAsciiUint high) = true
    · rw [if_pos huint, if_pos huint, Except.bind_eq_ok_of_spec fun _ => intOf_eq_ok_iff,
        Except.bind_eq_ok_of_spec fun _ => intOf_eq_ok_iff, Except.return_eq_ok_iff, ← and_assoc]
      rw [Bool.and_eq_true] at huint
      simp only [String.toList_ofList]
      refine and_congr_left' ⟨fun hshort => ?_, fun hshort => hshort low high ⟨rfl, rfl⟩ huint.1 huint.2⟩
      rintro _ _ ⟨rfl, rfl⟩ - -
      exact hshort
    · rw [if_neg huint, if_neg huint]
      refine Except.return_eq_ok_iff_of ?_
      rintro _ _ ⟨rfl, rfl⟩ hlow hhigh
      exact absurd (by rw [hlow, hhigh, Bool.and_self]) huint

theorem classify_eq_getD {element : String} (h : ¬ isAsciiUint element.toList = true) :
    Ferm.elementClass element = (Ferm.rangeClass element.toList).getD (classifyOther element) := by
  rw [Ferm.elementClass, if_neg h]
  cases Ferm.rangeClass element.toList <;> rfl

/-- An element is classified when no number of it is too long. -/
theorem classify_eq_ok_iff {element : String} {c : ElementClass} :
    classify element = .ok c ↔ Convertible element ∧ c = Ferm.elementClass element := by
  unfold Convertible
  by_cases huint : isAsciiUint element.toList = true
  · have hdash : partitionAt '-' element.toList = none := partitionAt_eq_none fun h =>
      absurd (not_isAsciiUint_of_mem h (by decide)) (by rw [huint]; decide)
    have hclass : Ferm.elementClass element = .number (uintValue 10 element.toList) := if_pos huint
    rw [hclass, classify, if_pos huint, Except.bind_eq_ok_of_spec fun _ => intOf_eq_ok_iff, Except.return_eq_ok_iff]
    simp only [huint, hdash, reduceCtorEq, false_imp_iff, implies_true, and_true, true_imp_iff]
  · rw [classify_eq_getD huint, classify, if_neg huint, Except.bind_eq_ok_of_spec fun _ => classifyRange_eq_ok_iff,
      Except.return_eq_ok_iff, and_iff_right fun h => absurd h huint]

theorem sortKey_eq_ok_iff {index : Nat} {element : String} {key : SortKey} :
    sortKey index element = .ok key ↔ Convertible element ∧ key = Ferm.elementKey index element := by
  rw [sortKey, Except.bind_eq_ok_of_spec fun _ => classify_eq_ok_iff, Ferm.elementKey]
  refine and_congr_right fun _ => ?_
  cases Ferm.elementClass element <;> exact Except.return_eq_ok_iff

variable {α : Type} {element : α → String} {items : List α}

/-- The sort returns when no number of an element is too long. -/
theorem sortByElement_eq_ok_iff {sorted : List α} : sortByElement element items = .ok sorted ↔
    (∀ a ∈ items, Convertible (element a)) ∧ sorted = Ferm.orderByElement element items := by
  let keyed : α × Nat → SortKey × α := fun item => (Ferm.elementKey item.2 (element item.1), item.1)
  have hstep : ∀ item ∈ items.zipIdx, ∀ r, (do
      let key ← sortKey item.2 (element item.1)
      return (key, item.1)) = Except.ok (ε := Raised) r ↔ Convertible (element item.1) ∧ r = keyed item := by
    intro item _ r
    rw [Except.bind_eq_ok_of_spec fun _ => sortKey_eq_ok_iff, Except.return_eq_ok_iff]
  have hsort : ((items.zipIdx.map keyed).insertionSort fun a b => a.1.le b.1).map Prod.snd = Ferm.orderByElement element items := by
    rw [Ferm.orderByElement, ← List.map_insertionSort _ _ keyed items.zipIdx fun _ _ _ _ => Iff.rfl, List.map_map]
    rfl
  rw [sortByElement, mapM_spec_ok_iff hstep, hsort]
  have hmem : (∀ item ∈ items.zipIdx, Convertible (element item.1)) ↔ ∀ a ∈ items, Convertible (element a) := by
    rw [← List.zipIdx_map_fst 0 items, List.forall_mem_map, List.zipIdx_map_fst]
  rw [hmem]

theorem sortSetElements_eq_ok_iff {elements sorted : List String} :
    sortSetElements elements = .ok sorted ↔ (∀ e ∈ elements, Convertible e) ∧ sorted = orderElements elements :=
  sortByElement_eq_ok_iff

theorem sortVmapPairs_eq_ok_iff {pairs sorted : List (String × String)} :
    sortVmapPairs pairs = .ok sorted ↔ (∀ p ∈ pairs, Convertible p.1) ∧ sorted = orderVmapPairs pairs :=
  sortByElement_eq_ok_iff

/-! ## The order of what is sorted -/

theorem isUnparsable_eq_true_iff {e : String} (h : Convertible e) : isUnparsable e = true ↔ Ferm.elementClass e = .unparsable := by
  rw [isUnparsable, classify_eq_ok_iff.2 ⟨h, rfl⟩]
  cases Ferm.elementClass e <;> simp

theorem rank_lt {c : ElementClass} (h : c ≠ .unparsable) : c.rank < 5 := by
  cases c with
  | unparsable => exact absurd rfl h
  | _ => simp [ElementClass.rank]

theorem elementKey_of_unparsable {e : String} (h : Ferm.elementClass e = .unparsable) (index : Nat) :
    Ferm.elementKey index e = ⟨5, [index], ""⟩ := by
  rw [Ferm.elementKey, h]

/-- The key of an element that is parsed does not depend on its place. -/
theorem elementKey_of_parsed {e : String} (h : Ferm.elementClass e ≠ .unparsable) (index : Nat) :
    Ferm.elementKey index e = ⟨(Ferm.elementClass e).rank, (Ferm.elementClass e).natural, e⟩ := by
  unfold Ferm.elementKey
  cases hclass : Ferm.elementClass e with
  | unparsable => exact absurd hclass h
  | _ => rfl

/-- The order of the numbered items. -/
abbrev Before (element : α → String) (a b : α × Nat) : Prop :=
  (Ferm.elementKey a.2 (element a.1)).le (Ferm.elementKey b.2 (element b.1))

instance : Std.Total (Before element) := ⟨fun _ _ => Std.Total.total (r := SortKey.le) _ _⟩

instance : IsTrans (α × Nat) (Before element) := ⟨fun _ _ _ => IsTrans.trans (r := SortKey.le) _ _ _⟩

theorem pairwise_places (items : List α) : items.zipIdx.Pairwise fun a b => a.2 < b.2 := by
  rw [← List.pairwise_map (f := Prod.snd) (R := (· < ·)), List.zipIdx_map_snd]
  exact List.pairwise_lt_range'

/-- Unparsable items stand in the order of their places. -/
theorem pairwise_unparsable {p : α × Nat → Bool}
    (hp : ∀ item ∈ items.zipIdx, p item = true → Ferm.elementClass (element item.1) = .unparsable) :
    (items.zipIdx.filter p).Pairwise (Before element) := by
  refine ((pairwise_places items).filter p).imp_of_mem fun {a b} ha hb hlt => ?_
  obtain ⟨ha, hpa⟩ := List.mem_filter.1 ha
  obtain ⟨hb, hpb⟩ := List.mem_filter.1 hb
  rw [Before, elementKey_of_unparsable (hp a ha hpa), elementKey_of_unparsable (hp b hb hpb)]
  exact .inr ⟨rfl, .inl (List.cons_lt_cons_iff.2 (.inl hlt))⟩

/-- An unparsable item is not before one that is parsed. -/
theorem not_before {a b : α × Nat} (ha : Ferm.elementClass (element a.1) = .unparsable) (hb : Ferm.elementClass (element b.1) ≠ .unparsable) :
    ¬ Before element a b := by
  have hrank := rank_lt hb
  rw [Before, elementKey_of_unparsable ha, elementKey_of_parsed hb]
  rintro (h | ⟨h, -⟩)
  · exact absurd hrank (Nat.lt_asymm h)
  · exact absurd h.symm (Nat.ne_of_lt hrank)

/-- The unparsable items are the tail of what is sorted. -/
theorem orderByElement_eq_append (hconv : ∀ a ∈ items, Convertible (element a)) :
    ∃ front, Ferm.orderByElement element items = front ++ items.filter (fun a => isUnparsable (element a)) ∧
      ∀ a ∈ front, isUnparsable (element a) = false := by
  let p : α × Nat → Bool := fun item => isUnparsable (element item.1)
  have hread : ∀ item ∈ items.zipIdx, p item = true ↔ Ferm.elementClass (element item.1) = .unparsable := fun item hitem =>
    isUnparsable_eq_true_iff (hconv item.1 (List.fst_mem_of_mem_zipIdx hitem))
  have hlast : ∀ a ∈ items.zipIdx, ∀ b ∈ items.zipIdx, p a = true → p b = false → ¬ Before element a b := by
    intro a ha b hb hpa hpb
    exact not_before ((hread a ha).1 hpa) fun h => by rw [(hread b hb).2 h] at hpb; cases hpb
  obtain ⟨front, hsorted, hfront⟩ := insertionSort_eq_append_filter (pairwise_unparsable fun item h => (hread item h).1) hlast
  have hfilter : (items.zipIdx.filter p).map Prod.fst = items.filter fun a => isUnparsable (element a) := by
    have h : (items.zipIdx.map Prod.fst).filter (fun a => isUnparsable (element a)) = (items.zipIdx.filter p).map Prod.fst :=
      List.filter_map ..
    rw [← h, List.zipIdx_map_fst]
  refine ⟨front.map Prod.fst, ?_, ?_⟩
  · rw [Ferm.orderByElement, hsorted, List.map_append, hfilter]
  · intro a ha
    obtain ⟨item, hitem, rfl⟩ := List.mem_map.1 ha
    exact hfront item hitem

/-- Items that are parsed, and told apart by their texts, are sorted to one list however they came. -/
theorem orderByElement_eq_of_perm {items' : List α} (hparsed : ∀ a ∈ items, Ferm.elementClass (element a) ≠ .unparsable)
    (hinj : ∀ a ∈ items, ∀ b ∈ items, element a = element b → a = b) (hperm : items'.Perm items) :
    Ferm.orderByElement element items' = Ferm.orderByElement element items := by
  let r : α → α → Prop := fun a b => (Ferm.elementKey 0 (element a)).le (Ferm.elementKey 0 (element b))
  have htotal : Std.Total r := ⟨fun _ _ => Std.Total.total (r := SortKey.le) _ _⟩
  have htrans : IsTrans α r := ⟨fun _ _ _ => IsTrans.trans (r := SortKey.le) _ _ _⟩
  have hplace : ∀ l : List α, (∀ a ∈ l, Ferm.elementClass (element a) ≠ .unparsable) →
      Ferm.orderByElement element l = l.insertionSort r := by
    intro l hl
    have h := List.map_insertionSort (Before element) r Prod.fst l.zipIdx fun a ha b hb => by
      have hkey : ∀ item ∈ l.zipIdx, Ferm.elementKey item.2 (element item.1) = Ferm.elementKey 0 (element item.1) := fun item hitem => by
        have hitem := hl item.1 (List.fst_mem_of_mem_zipIdx hitem)
        rw [elementKey_of_parsed hitem, elementKey_of_parsed hitem]
      rw [Before, hkey a ha, hkey b hb]
    rwa [List.zipIdx_map_fst] at h
  rw [hplace items hparsed, hplace items' fun a ha => hparsed a (hperm.mem_iff.1 ha)]
  refine insertionSort_eq_of_perm hperm fun a ha b hb hab hba => hinj a ha b hb ?_
  have hkey := SortKey.le_antisymm hab hba
  rw [elementKey_of_parsed (hparsed a ha), elementKey_of_parsed (hparsed b hb)] at hkey
  exact congrArg SortKey.text hkey

/-- What is in front of an item stays in front of it when its place is. -/
theorem before_of_lt {a b : α} {i j i' j' : Nat} (h : Before element (a, i) (b, j)) (hlt : i' < j') : Before element (a, i') (b, j') := by
  by_cases ha : Ferm.elementClass (element a) = .unparsable
  · by_cases hb : Ferm.elementClass (element b) = .unparsable
    · rw [Before, elementKey_of_unparsable ha, elementKey_of_unparsable hb]
      exact .inr ⟨rfl, .inl (List.cons_lt_cons_iff.2 (.inl hlt))⟩
    · exact absurd h (not_before ha hb)
  · rw [Before, elementKey_of_parsed ha] at h ⊢
    by_cases hb : Ferm.elementClass (element b) = .unparsable
    · rw [elementKey_of_unparsable hb]
      exact .inl (rank_lt ha)
    · rwa [elementKey_of_parsed hb] at h ⊢

/-- What is sorted stays when it is sorted again. -/
theorem orderByElement_orderByElement (element : α → String) (items : List α) :
    Ferm.orderByElement element (Ferm.orderByElement element items) = Ferm.orderByElement element items := by
  let sorted := items.zipIdx.insertionSort (Before element)
  have hpairs : (sorted.map Prod.fst).Pairwise fun a b => ∃ i j, Before element (a, i) (b, j) :=
    List.pairwise_map.2 ((List.pairwise_insertionSort (Before element) items.zipIdx).imp fun {a b} h => ⟨a.2, b.2, h⟩)
  have hnumbered : (sorted.map Prod.fst).zipIdx.Pairwise (Before element) := by
    have hfirst : (sorted.map Prod.fst).zipIdx.Pairwise fun a b => ∃ i j, Before element (a.1, i) (b.1, j) := by
      rw [← List.zipIdx_map_fst 0 (sorted.map Prod.fst)] at hpairs
      exact List.pairwise_map.1 hpairs
    refine (hfirst.and (pairwise_places (sorted.map Prod.fst))).imp fun {a b} h => ?_
    obtain ⟨⟨i, j, hbefore⟩, hlt⟩ := h
    exact before_of_lt hbefore hlt
  change ((sorted.map Prod.fst).zipIdx.insertionSort (Before element)).map Prod.fst = sorted.map Prod.fst
  rw [hnumbered.insertionSort_eq, List.zipIdx_map_fst]

/-- The sort is canonical on a list of items, told apart by their texts, when no number of a text is too long. -/
theorem isCanonicalOn_iff (hinj : ∀ a ∈ items, ∀ b ∈ items, element a = element b → a = b) :
    IsCanonicalOn (sortByElement element) element items ↔ ∀ a ∈ items, Convertible (element a) := by
  constructor
  · rintro ⟨sorted, hsorted, -⟩
    exact (sortByElement_eq_ok_iff.1 hsorted).1
  · intro hconv
    refine ⟨_, sortByElement_eq_ok_iff.2 ⟨hconv, rfl⟩, orderByElement_perm element items, orderByElement_eq_append hconv, ?_⟩
    intro hparsed items' hperm
    refine sortByElement_eq_ok_iff.2 ⟨fun a ha => hconv a (hperm.mem_iff.1 ha), ?_⟩
    refine (orderByElement_eq_of_perm (fun a ha h => ?_) hinj hperm).symm
    have := (isUnparsable_eq_true_iff (hconv a ha)).2 h
    rw [hparsed a ha] at this
    cases this

/-- The sorts of set elements and of verdict-map pairs with different keys are canonical on exactly the lists without a number that
is too long to be read. -/
theorem sorts_canonical_iff (elements : List String) (pairs : List (String × String)) (hkeys : (pairs.map Prod.fst).Nodup) :
    (IsCanonicalOn sortSetElements id elements ↔ ∀ e ∈ elements, Convertible e) ∧
      (IsCanonicalOn sortVmapPairs Prod.fst pairs ↔ ∀ p ∈ pairs, Convertible p.1) :=
  ⟨isCanonicalOn_iff fun _ _ _ _ => id, isCanonicalOn_iff fun _ ha _ hb => List.inj_on_of_nodup_map hkeys ha hb⟩

theorem sorts_canonical_ports :
    (IsCanonicalOn sortSetElements id ["443", "22"] ↔ ∀ e ∈ ["443", "22"], Convertible e) ∧
      (IsCanonicalOn sortVmapPairs Prod.fst [("443", "accept"), ("22", "drop")] ↔
        ∀ p ∈ [("443", "accept"), ("22", "drop")], Convertible p.1) :=
  sorts_canonical_iff ["443", "22"] [("443", "accept"), ("22", "drop")] (by decide)

/-- A number of 4301 digits is not sorted: reading it raises. -/
theorem sort_raises_on_long_number :
    sortSetElements [String.ofList (List.replicate 4301 '1')] = .error (.other "ValueError") ∧
      ¬ IsCanonicalOn sortSetElements id [String.ofList (List.replicate 4301 '1')] := by
  have hraise : sortSetElements [String.ofList (List.replicate 4301 '1')] = .error (.other "ValueError") := by
    have huint : isAsciiUint (List.replicate 4301 '1') = true := by
      rw [isAsciiUint, List.all_replicate]
      rfl
    have hlong : INT_MAX_STR_DIGITS < (List.replicate 4301 '1').length := by
      rw [List.length_replicate]
      decide
    have hint : intOf (String.ofList (List.replicate 4301 '1')) = .error (.other "ValueError") := by
      rw [intOf, String.toList_ofList, if_pos hlong]
    have hclass : classify (String.ofList (List.replicate 4301 '1')) = .error (.other "ValueError") := by
      rw [classify, String.toList_ofList, if_pos huint, hint]
      rfl
    rw [sortSetElements, sortByElement, List.zipIdx_singleton, List.mapM_cons, id, sortKey, hclass]
    rfl
  refine ⟨hraise, ?_⟩
  rintro ⟨sorted, hsorted, -⟩
  rw [hraise] at hsorted
  cases hsorted

end SetOrder

end Ferm
