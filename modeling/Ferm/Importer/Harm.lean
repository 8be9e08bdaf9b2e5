import Mathlib.Algebra.BigOperators.Ring.List
import Mathlib.Algebra.Group.Action.Defs
import Mathlib.Algebra.Order.BigOperators.GroupWithZero.List
import Mathlib.Algebra.Order.Ring.Nat
import Ferm.Importer.Expand

/-!
# Merges that do harm

A merge that is not harmless changes the list of single rules, if no single rule is in it twice: an option whose array is not unfolded
leaves fewer rules than there were, and every other harmful merge puts some rule behind one that was behind it. Later merges bring
neither back.
-/

namespace Ferm.Importer

/-! ## The order of two elements -/

section Order

variable {α β : Type}

/-- Elements of two lists that are put together stand in their order. -/
theorem pair_sublist_flatMap {f : α → List β} {l : List α} {a b : α} (h : List.Sublist [a, b] l) {x y : β} (hx : x ∈ f a)
    (hy : y ∈ f b) : List.Sublist [x, y] (l.flatMap f) := by
  have hab : List.Sublist ([x] ++ [y]) (f a ++ f b) :=
    (List.singleton_sublist.2 hx).append (List.singleton_sublist.2 hy)
  have hflat := h.flatMap f
  rw [List.flatMap_cons, List.flatMap_singleton] at hflat
  exact hab.trans hflat

/-- A list of two elements or more begins with two. -/
theorem exists_pair_sublist {l : List α} (h : 2 ≤ l.length) : ∃ a b, List.Sublist [a, b] l ∧ a ∈ l ∧ b ∈ l := by
  match l, h with
  | a :: b :: l, _ =>
    exact ⟨a, b, ((List.nil_sublist l).cons_cons b).cons_cons a, List.mem_cons_self, List.mem_cons_of_mem _ List.mem_cons_self⟩

/-- Without duplicates, two elements stand in one order only. -/
theorem not_both_orders {l : List α} (hl : l.Nodup) {x y : α} (h : List.Sublist [x, y] l) (h' : List.Sublist [y, x] l) :
    False := by
  induction l with
  | nil => cases h
  | cons a l ih =>
    obtain ⟨ha, hl⟩ := List.nodup_cons.1 hl
    have hmem : ∀ {u v : α}, List.Sublist [u, v] (a :: l) → List.Sublist [u, v] l ∨ u = a ∧ v ∈ l := by
      intro u v huv
      rcases List.sublist_cons_iff.1 huv with huv | ⟨r, hr, huv⟩
      · exact Or.inl huv
      · obtain ⟨rfl, rfl⟩ := List.cons.inj hr
        exact Or.inr ⟨rfl, List.singleton_sublist.1 huv⟩
    rcases hmem h with hxy | ⟨rfl, hy⟩
    · rcases hmem h' with hyx | ⟨rfl, hx⟩
      · exact ih hl hxy hyx
      · exact ha (hxy.subset (List.mem_cons_of_mem _ List.mem_cons_self))
    · rcases hmem h' with hyx | ⟨rfl, hx⟩
      · exact ha (hyx.subset (List.mem_cons_of_mem _ List.mem_cons_self))
      · exact ha hx

/-- Lists that get no longer one by one get no longer together, and if they do not get shorter, none of them does. -/
theorem length_flatMap_le {f g : α → List β} {l : List α} (h : ∀ a ∈ l, (f a).length ≤ (g a).length) :
    (l.flatMap f).length ≤ (l.flatMap g).length ∧
      ((l.flatMap f).length = (l.flatMap g).length → ∀ a ∈ l, (f a).length = (g a).length) := by
  induction l with
  | nil => exact ⟨Nat.le_refl _, fun _ a ha => absurd ha List.not_mem_nil⟩
  | cons a l ih =>
    obtain ⟨ha, hl⟩ := List.forall_mem_cons.1 h
    obtain ⟨hle, heq⟩ := ih hl
    rw [List.flatMap_cons, List.flatMap_cons, List.length_append, List.length_append, List.forall_mem_cons]
    exact ⟨by omega, fun h => ⟨by omega, heq (by omega)⟩⟩

/-- Lists of the same lengths that are the same together are the same one by one. -/
theorem eq_of_flatMap_eq {f g : α → List β} {l : List α} (hlen : ∀ a ∈ l, (f a).length = (g a).length)
    (h : l.flatMap f = l.flatMap g) : ∀ a ∈ l, f a = g a := by
  induction l with
  | nil => exact fun a ha => absurd ha List.not_mem_nil
  | cons a l ih =>
    obtain ⟨ha, hl⟩ := List.forall_mem_cons.1 hlen
    rw [List.flatMap_cons, List.flatMap_cons] at h
    obtain ⟨hhead, htail⟩ := List.append_inj h ha
    exact List.forall_mem_cons.2 ⟨hhead, ih hl htail⟩

/-- The order of summation does not count. -/
theorem sum_map_sum_map (l : List α) (m : List β) (f : α → β → Nat) :
    (l.map fun a => (m.map (f a)).sum).sum = (m.map fun b => (l.map fun a => f a b).sum).sum := by
  induction m with
  | nil => simp
  | cons b m ih => simp only [List.map_cons, List.sum_cons, List.sum_map_add, ih]

theorem exists_eq_map {P : β → Prop} {g : β → α} {l : List α} (h : ∀ a ∈ l, ∃ b, P b ∧ a = g b) :
    ∃ bs : List β, l = bs.map g ∧ ∀ b ∈ bs, P b := by
  induction l with
  | nil => exact ⟨[], rfl, fun b hb => absurd hb List.not_mem_nil⟩
  | cons a l ih =>
    obtain ⟨⟨b, hb, rfl⟩, hl⟩ := List.forall_mem_cons.1 h
    obtain ⟨bs, rfl, hbs⟩ := ih hl
    exact ⟨b :: bs, rfl, List.forall_mem_cons.2 ⟨hb, hbs⟩⟩

end Order

/-! ## Rules without empty arrays -/

/-- The value is no empty array. -/
def MatchEntry.Filled (e : MatchEntry) : Prop := e.value ≠ .array []

/-- No array is empty, and every block has more than one member. -/
inductive Rule.Filled : Rule → Prop
  | line {es : List MatchEntry} {d : RuleData} (hes : ∀ e ∈ es, e.Filled) : Filled (.line es d)
  | block {es : List MatchEntry} {members : List Rule} (hes : ∀ e ∈ es, e.Filled) (hlen : 2 ≤ members.length)
      (hmembers : ∀ r ∈ members, Filled r) : Filled (.block es members)

theorem Rule.Filled.entries {r : Rule} (h : r.Filled) : ∀ e ∈ r.entries, e.Filled := by
  cases h <;> assumption

theorem Rule.Filled.withEntries {r : Rule} (h : r.Filled) {es : List MatchEntry} (hes : ∀ e ∈ es, e.Filled) :
    (r.withEntries es).Filled := by
  cases h with
  | line => exact .line hes
  | block _ hlen hmembers => exact .block hes hlen hmembers

theorem Rule.Filled.tail {r : Rule} (h : r.Filled) : r.tail.Filled :=
  h.withEntries fun e he => h.entries e (List.mem_of_mem_tail he)

theorem RuleData.choices_ne_nil (d : RuleData) {e : MatchEntry} (h : e.Filled) : d.choices e ≠ [] := by
  obtain ⟨name, value⟩ := e
  cases value with
  | array vs =>
    simp only [choices]
    split
    · cases vs with
      | nil => exact absurd rfl h
      | cons v vs => exact List.cons_ne_nil _ _
    · exact List.cons_ne_nil _ _
  | _ => exact List.cons_ne_nil _ _

theorem RuleData.length_unfold (d : RuleData) (es : List MatchEntry) :
    (d.unfold es).length = (es.map fun e => (d.choices e).length).prod := by
  induction es with
  | nil => rfl
  | cons e es ih =>
    rw [unfold, List.map_cons, List.prod_cons, ← ih, List.length_flatMap]
    simp only [List.length_map, List.map_const', List.sum_replicate, smul_eq_mul]

theorem RuleData.unfold_pos (d : RuleData) {es : List MatchEntry} (h : ∀ e ∈ es, e.Filled) : 0 < (d.unfold es).length := by
  rw [length_unfold]
  refine List.prod_pos fun n hn => ?_
  obtain ⟨e, he, rfl⟩ := List.mem_map.1 hn
  exact List.length_pos_of_ne_nil (d.choices_ne_nil (h e he))

theorem Rule.Filled.expand_ne_nil {r : Rule} (h : r.Filled) {shared : List MatchEntry} (hshared : ∀ e ∈ shared, e.Filled) :
    ∃ x, x ∈ r.expand shared := by
  induction h generalizing shared with
  | @line es d hes =>
    obtain ⟨cs, hcs⟩ := List.exists_mem_of_length_pos (d.unfold_pos (List.forall_mem_append.2 ⟨hshared, hes⟩))
    exact ⟨⟨cs, d⟩, List.mem_map.2 ⟨cs, hcs, rfl⟩⟩
  | @block es members hes hlen hmembers ih =>
    obtain ⟨r, hr⟩ := List.exists_mem_of_length_pos (Nat.lt_of_lt_of_le Nat.zero_lt_two hlen)
    obtain ⟨x, hx⟩ := ih r hr (List.forall_mem_append.2 ⟨hshared, hes⟩)
    rw [expand, expandAll_eq]
    exact ⟨x, List.mem_flatMap.2 ⟨r, hr, hx⟩⟩

/-! ## A merged option -/

/-- The values a value brings to a merged array. -/
def elementsOf : Value → List Value
  | .array vs => vs
  | v => [v]

/-- The array of a merge. -/
def joined (vs : List Value) : Value := .array (vs.flatMap elementsOf)

theorem headValues_of_entries {r : Rule} {e : MatchEntry} {es : List MatchEntry} (h : r.entries = e :: es) :
    headValues r = elementsOf e.value := by
  obtain ⟨name, value⟩ := e
  unfold headValues
  rw [h]
  cases value <;> rfl

section Option

variable {n : String} {vs : List Value}

theorem choices_joined {d : RuleData} (hd : d.unfolds n = true) (hvs : ∀ v ∈ vs, isMergingArrayMember v = true) :
    d.choices ⟨n, joined vs⟩ = vs.flatMap fun v => d.choices ⟨n, v⟩ := by
  have hjoined : d.choices ⟨n, joined vs⟩ = (vs.flatMap elementsOf).map fun v => ⟨n, v⟩ := by
    simp only [RuleData.choices, joined]
    rw [if_pos hd]
  rw [hjoined, List.map_flatMap]
  refine List.flatMap_congr fun v hv => ?_
  have hmember := hvs v hv
  cases v with
  | scalar text => rfl
  | array ws =>
    simp only [RuleData.choices]
    rw [if_pos hd]
    rfl
  | _ => cases hmember

theorem length_choices_of_not_unfolds {d : RuleData} (hd : d.unfolds n = false) (v : Value) : (d.choices ⟨n, v⟩).length = 1 := by
  cases v with
  | array ws =>
    simp only [RuleData.choices]
    rw [hd]
    rfl
  | _ => rfl

/-- Every rule inside unfolds the option. -/
inductive Rule.Unfolds (n : String) : Rule → Prop
  | line {es : List MatchEntry} {d : RuleData} (hd : d.unfolds n = true) : Unfolds n (.line es d)
  | block {es : List MatchEntry} {members : List Rule} (hmembers : ∀ r ∈ members, Unfolds n r) : Unfolds n (.block es members)

theorem RuleData.mem_unfold_iff {d : RuleData} {p q : List MatchEntry} {e : MatchEntry} {cs : List MatchEntry} :
    cs ∈ d.unfold (p ++ e :: q) ↔ ∃ as ∈ d.unfold p, ∃ c ∈ d.choices e, ∃ bs ∈ d.unfold q, cs = as ++ c :: bs := by
  rw [unfold_append, unfold]
  constructor
  · intro h
    obtain ⟨as, has, h⟩ := List.mem_flatMap.1 h
    obtain ⟨cs', hcs', rfl⟩ := List.mem_map.1 h
    obtain ⟨c, hc, h⟩ := List.mem_flatMap.1 hcs'
    obtain ⟨bs, hbs, rfl⟩ := List.mem_map.1 h
    exact ⟨as, has, c, hc, bs, hbs, rfl⟩
  · rintro ⟨as, has, c, hc, bs, hbs, rfl⟩
    exact List.mem_flatMap.2 ⟨as, has, List.mem_map.2 ⟨c :: bs, List.mem_flatMap.2 ⟨c, hc, List.mem_map.2 ⟨bs, hbs, rfl⟩⟩, rfl⟩⟩

theorem RuleData.unfold_sublist {d : RuleData} {e e' : MatchEntry} (h : List.Sublist (d.choices e) (d.choices e'))
    (p q : List MatchEntry) : List.Sublist (d.unfold (p ++ e :: q)) (d.unfold (p ++ e' :: q)) := by
  rw [unfold_append, unfold_append, unfold, unfold]
  exact List.Sublist.flatMap_right _ fun as _ => (h.flatMap _).map _

/-- The rules of one value are among those of the merged array, in their order. -/
theorem Rule.Unfolds.expand_sublist {r : Rule} (h : r.Unfolds n) (hvs : ∀ v ∈ vs, isMergingArrayMember v = true) {v : Value}
    (hv : v ∈ vs) (p q : List MatchEntry) :
    List.Sublist (r.expand (p ++ ⟨n, v⟩ :: q)) (r.expand (p ++ ⟨n, joined vs⟩ :: q)) := by
  induction h generalizing q with
  | @line es d hd =>
    rw [expand, expand, List.append_assoc, List.append_assoc, List.cons_append, List.cons_append]
    refine (RuleData.unfold_sublist ?_ p (q ++ es)).map _
    rw [choices_joined hd hvs, List.flatMap_def]
    exact List.sublist_flatten_of_mem (List.mem_map_of_mem hv)
  | @block es members hmembers ih =>
    rw [expand, expand, expandAll_eq, expandAll_eq, List.append_assoc, List.append_assoc, List.cons_append, List.cons_append]
    exact List.Sublist.flatMap_right _ fun r hr => ih r hr (q ++ es)

/-- The rules of the merged array are rules of one of the values. -/
theorem Rule.Unfolds.mem_expand_joined {r : Rule} (h : r.Unfolds n) (hvs : ∀ v ∈ vs, isMergingArrayMember v = true)
    {p q : List MatchEntry} {x : SingleRule} (hx : x ∈ r.expand (p ++ ⟨n, joined vs⟩ :: q)) :
    ∃ v ∈ vs, x ∈ r.expand (p ++ ⟨n, v⟩ :: q) := by
  induction h generalizing q with
  | @line es d hd =>
    rw [expand, List.append_assoc, List.cons_append] at hx
    obtain ⟨cs, hcs, rfl⟩ := List.mem_map.1 hx
    obtain ⟨as, has, c, hc, bs, hbs, rfl⟩ := RuleData.mem_unfold_iff.1 hcs
    rw [choices_joined hd hvs] at hc
    obtain ⟨v, hv, hc⟩ := List.mem_flatMap.1 hc
    refine ⟨v, hv, ?_⟩
    rw [expand, List.append_assoc, List.cons_append]
    exact List.mem_map.2 ⟨_, RuleData.mem_unfold_iff.2 ⟨as, has, c, hc, bs, hbs, rfl⟩, rfl⟩
  | @block es members hmembers ih =>
    rw [expand, expandAll_eq, List.append_assoc, List.cons_append] at hx
    obtain ⟨r, hr, hx⟩ := List.mem_flatMap.1 hx
    obtain ⟨v, hv, hx⟩ := ih r hr hx
    refine ⟨v, hv, ?_⟩
    rw [expand, expandAll_eq, List.append_assoc, List.cons_append]
    exact List.mem_flatMap.2 ⟨r, hr, hx⟩

/-- The merged array never gives more rules than the values, and fewer when some rule inside does not unfold the option. -/
theorem Rule.Filled.length_joined {r : Rule} (h : r.Filled) (hvs : ∀ v ∈ vs, isMergingArrayMember v = true) (hlen : 2 ≤ vs.length)
    {p q : List MatchEntry} (hp : ∀ e ∈ p, e.Filled) (hq : ∀ e ∈ q, e.Filled) :
    (r.expand (p ++ ⟨n, joined vs⟩ :: q)).length ≤ (vs.map fun v => (r.expand (p ++ ⟨n, v⟩ :: q)).length).sum ∧
      ((r.expand (p ++ ⟨n, joined vs⟩ :: q)).length = (vs.map fun v => (r.expand (p ++ ⟨n, v⟩ :: q)).length).sum →
        r.Unfolds n) := by
  induction h generalizing q with
  | @line es d hes =>
    have hlength : ∀ v, ((Rule.line es d).expand (p ++ ⟨n, v⟩ :: q)).length =
        (d.choices ⟨n, v⟩).length * ((d.unfold p).length * (d.unfold (q ++ es)).length) := by
      intro v
      rw [expand, List.length_map, List.append_assoc, List.cons_append, RuleData.length_unfold, RuleData.length_unfold,
        RuleData.length_unfold, List.map_append, List.map_cons, List.prod_append, List.prod_cons]
      exact Nat.mul_left_comm _ _ _
    have hpos : 0 < (d.unfold p).length * (d.unfold (q ++ es)).length :=
      Nat.mul_pos (d.unfold_pos hp) (d.unfold_pos (List.forall_mem_append.2 ⟨hq, hes⟩))
    simp only [hlength]
    cases hd : d.unfolds n with
    | true =>
      rw [choices_joined hd hvs, List.length_flatMap, List.sum_map_mul_right]
      exact ⟨Nat.le_refl _, fun _ => .line hd⟩
    | false =>
      simp only [length_choices_of_not_unfolds hd, List.map_const', List.sum_replicate, smul_eq_mul, Nat.one_mul]
      have hlt := Nat.mul_lt_mul_of_pos_right (Nat.lt_of_lt_of_le Nat.one_lt_two hlen) hpos
      rw [Nat.one_mul] at hlt
      exact ⟨Nat.le_of_lt hlt, fun heq => absurd heq (Nat.ne_of_lt hlt)⟩
  | @block es members hes hlen' hmembers ih =>
    have ih := fun r hr => ih r hr (List.forall_mem_append.2 ⟨hq, hes⟩)
    have hexpand : ∀ v, (Rule.block es members).expand (p ++ ⟨n, v⟩ :: q) =
        members.flatMap fun r => r.expand (p ++ ⟨n, v⟩ :: (q ++ es)) := by
      intro v
      rw [expand, expandAll_eq, List.append_assoc, List.cons_append]
    have hsum : ((vs.map fun v => ((Rule.block es members).expand (p ++ ⟨n, v⟩ :: q)).length).sum) =
        (members.flatMap fun r => vs.flatMap fun v => r.expand (p ++ ⟨n, v⟩ :: (q ++ es))).length := by
      simp only [hexpand, List.length_flatMap]
      exact sum_map_sum_map vs members _
    rw [hsum, hexpand]
    have hmember : ∀ r ∈ members, (r.expand (p ++ ⟨n, joined vs⟩ :: (q ++ es))).length ≤
        (vs.flatMap fun v => r.expand (p ++ ⟨n, v⟩ :: (q ++ es))).length := by
      intro r hr
      rw [List.length_flatMap]
      exact (ih r hr).1
    obtain ⟨hle, heq⟩ := length_flatMap_le hmember
    refine ⟨hle, fun h => .block fun r hr => (ih r hr).2 ?_⟩
    rw [heq h r hr, List.length_flatMap]

end Option

/-! ## The second pass -/

/-- What a transformation of rules does to the single rules they stand for: there are no more of them, and where there are as many,
they are the same ones. -/
structure Shrinks (shared : List MatchEntry) (rules rules' : List Rule) : Prop where
  length_le : (expandAll shared rules').length ≤ (expandAll shared rules).length
  mem : (expandAll shared rules').length = (expandAll shared rules).length →
    ∀ x ∈ expandAll shared rules', x ∈ expandAll shared rules

theorem Shrinks.trans {shared : List MatchEntry} {rules₁ rules₂ rules₃ : List Rule} (h₁ : Shrinks shared rules₁ rules₂)
    (h₂ : Shrinks shared rules₂ rules₃) : Shrinks shared rules₁ rules₃ := by
  have hle₁ := h₁.length_le
  have hle₂ := h₂.length_le
  exact ⟨hle₂.trans hle₁, fun heq x hx => h₁.mem (by omega) x (h₂.mem (by omega) x hx)⟩

/-- A merge of two rules or more: what they have in common, their values, and the rule they become. -/
theorem isRun_arrayJoins_values {first second : Rule} {rest : List Rule}
    (h : IsRun (headJoins arrayJoins) (first :: second :: rest)) :
    ∃ e es vs, first.entries = e :: es ∧ (∀ v ∈ vs, isMergingArrayMember v = true) ∧
      first :: second :: rest = vs.map (fun v => first.withEntries (⟨e.name, v⟩ :: es)) ∧
      mergeRun (first :: second :: rest) = [first.withEntries (⟨e.name, joined vs⟩ :: es)] := by
  obtain ⟨e, es, hfirst, hall⟩ := isRun_arrayJoins h
  obtain ⟨vs, hvs, hmember⟩ := exists_eq_map hall
  refine ⟨e, es, vs, hfirst, hmember, hvs, ?_⟩
  have hvalues : (first :: second :: rest).flatMap headValues = vs.flatMap elementsOf := by
    rw [hvs, List.flatMap_map]
    exact List.flatMap_congr fun v _ => headValues_of_entries (Rule.entries_withEntries _ _)
  simp only [mergeRun, hfirst, hvalues]
  rfl

/-- Behind an option with several choices, something of the second rule of a merge comes before something of the first. -/
theorem line_swaps {n : String} {vs : List Value} {v₁ v₂ : Value} {shared es : List MatchEntry} {d : RuleData}
    (hd : d.unfolds n = true) (hvs : ∀ v ∈ vs, isMergingArrayMember v = true) (hv₁ : v₁ ∈ vs) (hv₂ : v₂ ∈ vs)
    (hfilled : ∀ v ∈ vs, (MatchEntry.mk n v).Filled) (hshared : ∀ e ∈ shared, e.Filled) (hes : ∀ e ∈ es, e.Filled)
    (hmany : ∃ e ∈ shared, (d.choices e).length ≠ 1) :
    ∃ x y, x ∈ (Rule.line es d).expand (shared ++ [⟨n, v₁⟩]) ∧ y ∈ (Rule.line es d).expand (shared ++ [⟨n, v₂⟩]) ∧
      List.Sublist [y, x] ((Rule.line es d).expand (shared ++ [⟨n, joined vs⟩])) := by
  have hexpand : ∀ v, (Rule.line es d).expand (shared ++ [⟨n, v⟩]) =
      (d.unfold shared).flatMap fun cs => (d.unfold (⟨n, v⟩ :: es)).map fun t => ⟨cs ++ t, d⟩ := by
    intro v
    rw [Rule.expand, List.append_assoc, List.singleton_append, RuleData.unfold_append, List.map_flatMap]
    simp only [List.map_map]
    rfl
  have htwo : 2 ≤ (d.unfold shared).length := by
    obtain ⟨e, he, hne⟩ := hmany
    have hpos := List.length_pos_of_ne_nil (d.choices_ne_nil (hshared e he))
    have hdvd : (d.choices e).length ∣ (d.unfold shared).length := by
      rw [RuleData.length_unfold]
      exact List.dvd_prod (List.mem_map_of_mem (f := fun e => (d.choices e).length) he)
    have hle := Nat.le_of_dvd (d.unfold_pos hshared) hdvd
    omega
  have hmem : ∀ v ∈ vs, ∃ t ∈ d.unfold (⟨n, v⟩ :: es), t ∈ d.unfold (⟨n, joined vs⟩ :: es) := by
    intro v hv
    obtain ⟨t, ht⟩ := List.exists_mem_of_length_pos (d.unfold_pos (List.forall_mem_cons.2 ⟨hfilled v hv, hes⟩))
    have hsub := (Rule.Unfolds.line hd : (Rule.line [] d).Unfolds n).expand_sublist hvs hv [] es
    refine ⟨t, ht, ?_⟩
    obtain ⟨_, hc, ht⟩ := List.mem_flatMap.1 ht
    refine List.mem_flatMap.2 ⟨_, ?_, ht⟩
    rw [choices_joined hd hvs]
    exact List.mem_flatMap.2 ⟨v, hv, hc⟩
  obtain ⟨t₁, ht₁, ht₁'⟩ := hmem v₁ hv₁
  obtain ⟨t₂, ht₂, ht₂'⟩ := hmem v₂ hv₂
  obtain ⟨c₁, c₂, hpair, hc₁, hc₂⟩ := exists_pair_sublist htwo
  refine ⟨⟨c₂ ++ t₁, d⟩, ⟨c₁ ++ t₂, d⟩, ?_, ?_, ?_⟩
  · rw [hexpand]
    exact List.mem_flatMap.2 ⟨c₂, hc₂, List.mem_map.2 ⟨t₁, ht₁, rfl⟩⟩
  · rw [hexpand]
    exact List.mem_flatMap.2 ⟨c₁, hc₁, List.mem_map.2 ⟨t₂, ht₂, rfl⟩⟩
  · rw [hexpand]
    exact pair_sublist_flatMap hpair (List.mem_map.2 ⟨t₂, ht₂', rfl⟩) (List.mem_map.2 ⟨t₁, ht₁', rfl⟩)

/-- The first member of the second block of a merge comes before the second member of the first. -/
theorem block_swaps {n : String} {vs : List Value} {v₁ v₂ : Value} {shared es : List MatchEntry} {members : List Rule}
    (hblock : (Rule.block es members).Unfolds n) (hvs : ∀ v ∈ vs, isMergingArrayMember v = true) (hv₁ : v₁ ∈ vs) (hv₂ : v₂ ∈ vs)
    (hfilled : ∀ v ∈ vs, (MatchEntry.mk n v).Filled) (hshared : ∀ e ∈ shared, e.Filled) (hmembers : (Rule.block es members).Filled) :
    ∃ x y, x ∈ (Rule.block es members).expand (shared ++ [⟨n, v₁⟩]) ∧ y ∈ (Rule.block es members).expand (shared ++ [⟨n, v₂⟩]) ∧
      List.Sublist [y, x] ((Rule.block es members).expand (shared ++ [⟨n, joined vs⟩])) := by
  have hexpand : ∀ v, (Rule.block es members).expand (shared ++ [⟨n, v⟩]) =
      members.flatMap (Rule.expand (shared ++ ⟨n, v⟩ :: es)) := by
    intro v
    rw [Rule.expand, expandAll_eq, List.append_assoc, List.singleton_append]
  cases hblock with
  | block hunfolds =>
    cases hmembers with
    | block hes hlen hall =>
      obtain ⟨m₁, m₂, hpair, hm₁, hm₂⟩ := exists_pair_sublist hlen
      have hpath : ∀ v ∈ vs, ∀ e ∈ shared ++ ⟨n, v⟩ :: es, e.Filled := fun v hv =>
        List.forall_mem_append.2 ⟨hshared, List.forall_mem_cons.2 ⟨hfilled v hv, hes⟩⟩
      obtain ⟨x, hx⟩ := (hall m₂ hm₂).expand_ne_nil (hpath v₁ hv₁)
      obtain ⟨y, hy⟩ := (hall m₁ hm₁).expand_ne_nil (hpath v₂ hv₂)
      refine ⟨x, y, ?_, ?_, ?_⟩
      · rw [hexpand]
        exact List.mem_flatMap.2 ⟨m₂, hm₂, hx⟩
      · rw [hexpand]
        exact List.mem_flatMap.2 ⟨m₁, hm₁, hy⟩
      · rw [hexpand]
        exact pair_sublist_flatMap hpair (((hunfolds m₁ hm₁).expand_sublist hvs hv₂ shared es).subset hy)
          (((hunfolds m₂ hm₂).expand_sublist hvs hv₁ shared es).subset hx)

section Merging

variable {run : List Rule} {shared : List MatchEntry}

/-- What a merge does: where it leaves as many rules as there were, it keeps the order of each rule it joins, and if it is not
harmless, it puts something behind what was behind it. -/
theorem mergeRun_spec (hrun : IsRun (headJoins arrayJoins) run) (hfilled : ∀ r ∈ run, r.Filled)
    (hshared : ∀ e ∈ shared, e.Filled) :
    ∃ r', mergeRun run = [r'] ∧ Shrinks shared run [r'] ∧
      ((r'.expand shared).length = (expandAll shared run).length →
        (∀ r ∈ run, List.Sublist (r.expand shared) (r'.expand shared)) ∧
        (2 ≤ run.length → (Merge.mk shared run).harmless = false →
          ∃ r₁ r₂ x y, List.Sublist [r₁, r₂] run ∧ x ∈ r₁.expand shared ∧ y ∈ r₂.expand shared ∧
            List.Sublist [y, x] (r'.expand shared))) := by
  match run, hrun with
  | [], hrun => exact absurd rfl hrun.ne_nil
  | [r], _ =>
    refine ⟨r, rfl, ⟨Nat.le_refl _, fun _ x hx => hx⟩, fun _ => ⟨fun r' hr' => ?_, fun hlen => ?_⟩⟩
    · rw [List.mem_singleton.1 hr']
    · exact absurd hlen (Nat.not_le_of_lt Nat.one_lt_two)
  | first :: second :: rest, hrun =>
    obtain ⟨e, es, vs, hfirst, hmember, hvalues, hmerged⟩ := isRun_arrayJoins_values hrun
    have hlen : 2 ≤ vs.length := by
      have := congrArg List.length hvalues
      rw [List.length_map] at this
      exact this ▸ Nat.le_add_left 2 _
    have hexpand : ∀ v, (first.withEntries (⟨e.name, v⟩ :: es)).expand shared = first.tail.expand (shared ++ [⟨e.name, v⟩]) := by
      intro v
      rw [expand_withEntries_cons, Rule.tail, hfirst, List.tail_cons]
    have hall : expandAll shared (first :: second :: rest) =
        vs.flatMap fun v => first.tail.expand (shared ++ [⟨e.name, v⟩]) := by
      rw [expandAll_eq, hvalues, List.flatMap_map]
      simp only [hexpand]
    have htail : first.tail.Filled := (hfilled first List.mem_cons_self).tail
    obtain ⟨hle, hunfolds⟩ := htail.length_joined (n := e.name) (q := []) hmember hlen hshared
      fun e he => absurd he List.not_mem_nil
    rw [← List.length_flatMap, ← hall] at hle hunfolds
    refine ⟨_, hmerged, ⟨?_, ?_⟩, ?_⟩
    · rw [expandAll, expandAll, List.append_nil, hexpand]
      exact hle
    · rw [expandAll, expandAll, List.append_nil, hexpand]
      intro heq x hx
      obtain ⟨v, hv, hx⟩ := (hunfolds heq).mem_expand_joined hmember hx
      rw [hall]
      exact List.mem_flatMap.2 ⟨v, hv, hx⟩
    · rw [hexpand]
      intro heq
      have hunfolds := hunfolds heq
      have hsub : ∀ v ∈ vs, List.Sublist (first.tail.expand (shared ++ [⟨e.name, v⟩]))
          (first.tail.expand (shared ++ [⟨e.name, joined vs⟩])) := fun v hv => hunfolds.expand_sublist hmember hv shared []
      refine ⟨fun r hr => ?_, fun _ hharm => ?_⟩
      · rw [hvalues] at hr
        obtain ⟨v, hv, rfl⟩ := List.mem_map.1 hr
        rw [hexpand]
        exact hsub v hv
      · obtain ⟨v₁, v₂, hpair, hv₁, hv₂⟩ := exists_pair_sublist hlen
        have hentries : ∀ v ∈ vs, (MatchEntry.mk e.name v).Filled := by
          intro v hv
          have hr := hfilled (first.withEntries (⟨e.name, v⟩ :: es)) (hvalues ▸ List.mem_map_of_mem hv)
          exact hr.entries _ (by rw [Rule.entries_withEntries]; exact List.mem_cons_self)
        have hswaps : ∃ x y, x ∈ first.tail.expand (shared ++ [⟨e.name, v₁⟩]) ∧ y ∈ first.tail.expand (shared ++ [⟨e.name, v₂⟩]) ∧
            List.Sublist [y, x] (first.tail.expand (shared ++ [⟨e.name, joined vs⟩])) := by
          cases first with
          | line _ d =>
            cases hfirst
            cases hunfolds with
            | line hd =>
              cases htail with
              | line hes =>
                refine line_swaps hd hmember hv₁ hv₂ hentries hshared hes ?_
                simpa [Merge.harmless, hd] using hharm
          | block _ members =>
            cases hfirst
            exact block_swaps hunfolds hmember hv₁ hv₂ hentries hshared htail
        obtain ⟨x, y, hx, hy, hyx⟩ := hswaps
        refine ⟨_, _, x, y, ?_, (hexpand v₁).symm ▸ hx, (hexpand v₂).symm ▸ hy, hyx⟩
        rw [hvalues]
        exact hpair.map fun v => first.withEntries (⟨e.name, v⟩ :: es)

end Merging

/-! ## The first pass -/

/-- What optimizing does to filled rules. -/
structure Optimizes (shared : List MatchEntry) (rules rules' : List Rule) : Prop where
  ne_nil : rules ≠ [] → rules' ≠ []
  filled : ∀ r ∈ rules', r.Filled
  shrinks : Shrinks shared rules rules'

/-- Some rule that is there afterwards has two single rules the other way round. -/
def Swaps (shared : List MatchEntry) (rules rules' : List Rule) : Prop :=
  ∃ r ∈ rules', ∃ x y, List.Sublist [x, y] (expandAll shared rules) ∧ List.Sublist [y, x] (r.expand shared)

/-- What a run becomes when it is factored. -/
theorem factorRun_spec (opt : List Rule → List Rule) (shared : List MatchEntry) {run : List Rule}
    (hrun : IsRun (headJoins prefixMatches) run) (hfilled : ∀ r ∈ run, r.Filled)
    (hopt : 2 ≤ run.length → ∀ e, commonEntry run = [e] → e.Filled →
      Optimizes (shared ++ [e]) (run.map Rule.tail) (opt (run.map Rule.tail))) :
    ∃ r', factorRun opt run = [r'] ∧ r'.Filled ∧ Shrinks shared run [r'] ∧
      (2 ≤ run.length → ∃ e, commonEntry run = [e] ∧ e.Filled ∧
        r'.expand shared = expandAll (shared ++ [e]) (opt (run.map Rule.tail)) ∧
        expandAll (shared ++ [e]) (run.map Rule.tail) = expandAll shared run) := by
  rcases run with _ | ⟨first, _ | ⟨second, rest⟩⟩
  · exact absurd rfl hrun.ne_nil
  · refine ⟨first, rfl, hfilled first List.mem_cons_self, ⟨Nat.le_refl _, fun _ x hx => hx⟩, fun hlen => ?_⟩
    exact absurd hlen (Nat.not_le_of_lt Nat.one_lt_two)
  · obtain ⟨e, es, hfirst, hall⟩ := isRun_prefixMatches hrun
    have hcommon : commonEntry (first :: second :: rest) = [e] := by
      rw [commonEntry, hfirst]
      rfl
    have he : e.Filled := (hfilled first List.mem_cons_self).entries e (by rw [hfirst]; exact List.mem_cons_self)
    have htails := expandAll_map_tail hall shared
    have hopt := hopt (Nat.le_add_left 2 _) e hcommon he
    generalize hrun' : first :: second :: rest = run at *
    have hbecomes : ∃ r', factorRun opt run = [r'] ∧ r'.Filled ∧
        r'.expand shared = expandAll (shared ++ [e]) (opt (run.map Rule.tail)) := by
      rw [← hrun']
      simp only [factorRun, hfirst]
      rw [hrun']
      split
      · rename_i rule hone
        have hrule := hopt.filled rule (by rw [hone]; exact List.mem_cons_self)
        refine ⟨_, rfl, hrule.withEntries (List.forall_mem_cons.2 ⟨he, hrule.entries⟩), ?_⟩
        rw [hone, expandAll, expandAll, List.append_nil, expand_withEntries_cons, Rule.withEntries_self]
      · rename_i members hmany
        have hne := hopt.ne_nil (by rw [← hrun']; exact List.cons_ne_nil _ _)
        have hlen : 2 ≤ (opt (run.map Rule.tail)).length := by
          rcases hmembers : opt (run.map Rule.tail) with _ | ⟨rule, _ | ⟨rule', rest'⟩⟩
          · exact absurd hmembers hne
          · exact absurd hmembers (hmany rule)
          · exact Nat.le_add_left 2 _
        exact ⟨_, rfl, .block (List.forall_mem_singleton.2 he) hlen hopt.filled, by rw [Rule.expand]⟩
    obtain ⟨r', hr', hfilled', hexpand⟩ := hbecomes
    have hsingle : expandAll shared [r'] = expandAll (shared ++ [e]) (opt (run.map Rule.tail)) := by
      rw [expandAll, expandAll, List.append_nil, hexpand]
    refine ⟨r', hr', hfilled', ⟨?_, ?_⟩, fun _ => ⟨e, hcommon, he, hexpand, htails⟩⟩
    · rw [hsingle, ← htails]
      exact hopt.shrinks.length_le
    · rw [hsingle, ← htails]
      exact hopt.shrinks.mem

/-! ## Passes -/

theorem expandAll_runs (joins : List Rule → Rule → Bool) (shared : List MatchEntry) (rules : List Rule) :
    expandAll shared rules = (greedyRuns joins rules).flatMap (expandAll shared) := by
  have hflat : expandAll shared rules = expandAll shared (greedyRuns joins rules).flatten := by rw [flatten_greedyRuns]
  rw [hflat, expandAll_eq, List.flatten_eq_flatMap, List.flatMap_assoc]
  refine List.flatMap_congr fun run _ => ?_
  rw [expandAll_eq]
  rfl

/-- A pass over runs, each of which becomes one rule. -/
theorem runs_spec {joins : List Rule → Rule → Bool} {f : List Rule → List Rule} {shared : List MatchEntry} {rules : List Rule}
    (h : ∀ run ∈ greedyRuns joins rules, ∃ r', f run = [r'] ∧ Shrinks shared run [r']) :
    Shrinks shared rules ((greedyRuns joins rules).flatMap f) ∧
      ((expandAll shared ((greedyRuns joins rules).flatMap f)).length = (expandAll shared rules).length →
        ∀ run ∈ greedyRuns joins rules, (expandAll shared (f run)).length = (expandAll shared run).length) := by
  have hrules := expandAll_runs joins shared rules
  have hpass : expandAll shared ((greedyRuns joins rules).flatMap f) =
      (greedyRuns joins rules).flatMap fun run => expandAll shared (f run) := by
    rw [expandAll_eq, List.flatMap_assoc]
    exact List.flatMap_congr fun run _ => (expandAll_eq shared (f run)).symm
  have hrun : ∀ run ∈ greedyRuns joins rules, Shrinks shared run (f run) := by
    intro run hmem
    obtain ⟨r', hr', hshrinks⟩ := h run hmem
    exact hr' ▸ hshrinks
  obtain ⟨hle, heq⟩ := length_flatMap_le fun run hmem => (hrun run hmem).length_le
  rw [hpass, hrules]
  refine ⟨⟨by rw [hpass, hrules]; exact hle, ?_⟩, heq⟩
  rw [hpass, hrules]
  intro hlen x hx
  obtain ⟨run, hmem, hx⟩ := List.mem_flatMap.1 hx
  exact List.mem_flatMap.2 ⟨run, hmem, (hrun run hmem).mem (heq hlen run hmem) x hx⟩

/-- Rules that two runs become, in their order, come from two runs in that order. -/
theorem pair_sublist_runs {f : List Rule → List Rule} {runs : List (List Rule)} (hf : ∀ run ∈ runs, ∃ r', f run = [r'])
    {r₁ r₂ : Rule} (h : List.Sublist [r₁, r₂] (runs.flatMap f)) :
    ∃ run₁ run₂, List.Sublist [run₁, run₂] runs ∧ f run₁ = [r₁] ∧ f run₂ = [r₂] := by
  have hsingle : runs.flatMap f = runs.map fun run => (f run).headD (.line [] {}) := by
    rw [List.map_eq_flatMap]
    refine List.flatMap_congr fun run hrun => ?_
    obtain ⟨r', hr'⟩ := hf run hrun
    rw [hr']
    rfl
  rw [hsingle] at h
  obtain ⟨l, hl, heq⟩ := List.sublist_map_iff.1 h
  match l, heq with
  | [run₁, run₂], heq =>
    obtain ⟨r₁', hr₁⟩ := hf run₁ (hl.subset List.mem_cons_self)
    obtain ⟨r₂', hr₂⟩ := hf run₂ (hl.subset (List.mem_cons_of_mem _ List.mem_cons_self))
    simp only [List.map_cons, List.map_nil, hr₁, hr₂, List.headD_cons, List.cons.injEq, and_true] at heq
    obtain ⟨rfl, rfl⟩ := heq
    exact ⟨run₁, run₂, hl, hr₁, hr₂⟩

/-! ## Optimizing -/

theorem expandAll_sublist_of_mem {shared : List MatchEntry} {rules : List Rule} {r : Rule} (h : r ∈ rules) :
    List.Sublist (r.expand shared) (expandAll shared rules) := by
  rw [expandAll_eq, List.flatMap_def]
  exact List.sublist_flatten_of_mem (List.mem_map_of_mem h)

theorem expandAll_sublist_of_run {joins : List Rule → Rule → Bool} {shared : List MatchEntry} {rules run : List Rule}
    (h : run ∈ greedyRuns joins rules) : List.Sublist (expandAll shared run) (expandAll shared rules) := by
  have hrun : List.Sublist run rules := by
    have hflat := List.sublist_flatten_of_mem h
    rwa [flatten_greedyRuns] at hflat
  rw [expandAll_eq, expandAll_eq]
  exact hrun.flatMap _

/-- A rule that is merged keeps the elements' values. -/
theorem mergeRun_filled {run : List Rule} (hrun : IsRun (headJoins arrayJoins) run) (hfilled : ∀ r ∈ run, r.Filled) :
    ∀ r ∈ mergeRun run, r.Filled := by
  match run, hrun with
  | [], _ => exact fun r hr => absurd hr List.not_mem_nil
  | [r], _ => exact hfilled
  | first :: second :: rest, hrun =>
    obtain ⟨e, es, vs, hfirst, hmember, hvalues, hmerged⟩ := isRun_arrayJoins_values hrun
    have hentries := (hfilled first List.mem_cons_self).entries
    rw [hfirst] at hentries
    obtain ⟨he, hes⟩ := List.forall_mem_cons.1 hentries
    rw [hmerged, List.forall_mem_singleton]
    refine (hfilled first List.mem_cons_self).withEntries (List.forall_mem_cons.2 ⟨fun h => ?_, hes⟩)
    have hempty : (first :: second :: rest).flatMap headValues = [] := by
      rw [hvalues, List.flatMap_map, ← Value.array.inj h]
      exact List.flatMap_congr fun v _ => headValues_of_entries (Rule.entries_withEntries _ _)
    have hhead : headValues first = [] := List.flatMap_eq_nil_iff.1 hempty first List.mem_cons_self
    rw [headValues_of_entries hfirst] at hhead
    obtain ⟨name, value⟩ := e
    cases value with
    | array ws => exact he (congrArg Value.array hhead)
    | _ => cases hhead

theorem greedyRuns_ne_nil {joins : List Rule → Rule → Bool} {rules : List Rule} (h : rules ≠ []) : greedyRuns joins rules ≠ [] := by
  intro hnil
  have hflat := flatten_greedyRuns joins rules
  rw [hnil] at hflat
  exact h hflat.symm

theorem flatMap_runs_ne_nil {f : List Rule → List Rule} {runs : List (List Rule)} (h : runs ≠ [])
    (hf : ∀ run ∈ runs, ∃ r', f run = [r']) : runs.flatMap f ≠ [] := by
  intro hnil
  obtain ⟨run, hrun⟩ := List.exists_mem_of_ne_nil runs h
  obtain ⟨r', hr'⟩ := hf run hrun
  have := List.flatMap_eq_nil_iff.1 hnil run hrun
  rw [hr'] at this
  cases this

/-- What optimizing does. -/
theorem optimizeWithin_spec (depth : Nat) {shared : List MatchEntry} {rules : List Rule} (hfilled : ∀ r ∈ rules, r.Filled)
    (hshared : ∀ e ∈ shared, e.Filled) :
    Optimizes shared rules (optimizeWithin depth rules) ∧
      ((expandAll shared (optimizeWithin depth rules)).length = (expandAll shared rules).length →
        (∃ m ∈ mergesWithin depth shared rules, m.harmless = false) → Swaps shared rules (optimizeWithin depth rules)) := by
  induction depth generalizing shared rules with
  | zero =>
    refine ⟨⟨id, hfilled, ⟨Nat.le_refl _, fun _ x hx => hx⟩⟩, fun _ => ?_⟩
    rintro ⟨m, hm, -⟩
    cases hm
  | succ depth ih =>
    have hruns : ∀ run ∈ greedyRuns (headJoins prefixMatches) rules, ∀ r ∈ run, r.Filled := fun run hrun r hr =>
      hfilled r (by rw [← flatten_greedyRuns (headJoins prefixMatches) rules]; exact List.mem_flatten_of_mem hrun hr)
    have htails : ∀ run ∈ greedyRuns (headJoins prefixMatches) rules, ∀ r ∈ run.map Rule.tail, r.Filled := by
      intro run hrun r hr
      obtain ⟨r, hmem, rfl⟩ := List.mem_map.1 hr
      exact (hruns run hrun r hmem).tail
    have hpath : ∀ e : MatchEntry, e.Filled → ∀ e' ∈ shared ++ [e], e'.Filled := fun e he =>
      List.forall_mem_append.2 ⟨hshared, List.forall_mem_singleton.2 he⟩
    have hfactor := fun run hrun => factorRun_spec (optimizeWithin depth) shared (isRun_of_mem hrun) (hruns run hrun)
      fun _ e _ he => (ih (htails run hrun) (hpath e he)).1
    have hfactored : ∀ r ∈ factorPass (optimizeWithin depth) rules, r.Filled := by
      intro r hr
      obtain ⟨run, hrun, hr⟩ := List.mem_flatMap.1 hr
      obtain ⟨r', hr', hfilled', -⟩ := hfactor run hrun
      rw [hr', List.mem_singleton] at hr
      exact hr ▸ hfilled'
    have hmembers : ∀ run ∈ greedyRuns (headJoins arrayJoins) (factorPass (optimizeWithin depth) rules), ∀ r ∈ run, r.Filled :=
      fun run hrun r hr => hfactored r (by
        rw [← flatten_greedyRuns (headJoins arrayJoins) (factorPass (optimizeWithin depth) rules)]
        exact List.mem_flatten_of_mem hrun hr)
    have hmerge := fun run hrun => mergeRun_spec (isRun_of_mem hrun) (hmembers run hrun) hshared
    obtain ⟨hshrinks₁, heq₁⟩ := runs_spec fun run hrun => by
      obtain ⟨r', hr', -, hshrinks, -⟩ := hfactor run hrun
      exact ⟨r', hr', hshrinks⟩
    obtain ⟨hshrinks₂, heq₂⟩ := runs_spec fun run hrun => by
      obtain ⟨r', hr', hshrinks, -⟩ := hmerge run hrun
      exact ⟨r', hr', hshrinks⟩
    refine ⟨⟨fun hne => ?_, fun r hr => ?_, hshrinks₁.trans hshrinks₂⟩, fun hlen => ?_⟩
    · refine flatMap_runs_ne_nil (greedyRuns_ne_nil (flatMap_runs_ne_nil (greedyRuns_ne_nil hne) ?_)) ?_
      · intro run hrun
        obtain ⟨r', hr', -⟩ := hfactor run hrun
        exact ⟨r', hr'⟩
      · intro run hrun
        obtain ⟨r', hr', -⟩ := hmerge run hrun
        exact ⟨r', hr'⟩
    · obtain ⟨run, hrun, hr⟩ := List.mem_flatMap.1 hr
      exact mergeRun_filled (isRun_of_mem hrun) (hmembers run hrun) r hr
    · have hle₁ := hshrinks₁.length_le
      have hle₂ := hshrinks₂.length_le
      rw [optimizeWithin] at hlen
      have hlen₁ := heq₁ (by unfold mergePass factorPass at *; omega)
      have hlen₂ := heq₂ (by unfold mergePass factorPass at *; omega)
      rintro ⟨m, hm, hharm⟩
      rcases List.mem_append.1 hm with hm | hm
      · -- the recursion swaps two rules of one run, and the merge that takes in what the run becomes keeps their order
        obtain ⟨run, hrun, hm⟩ := List.mem_flatMap.1 hm
        obtain ⟨hrun, hmany⟩ := List.mem_filter.1 hrun
        obtain ⟨r', hr', -, -, hcommon⟩ := hfactor run hrun
        obtain ⟨e, hcommon, he, hexpand, htail⟩ := hcommon (of_decide_eq_true hmany)
        have hlen' := hlen₁ run hrun
        rw [hr', expandAll, expandAll, List.append_nil, hexpand, ← htail] at hlen'
        rw [hcommon] at hm
        obtain ⟨r, hr, x, y, hxy, hyx⟩ := (ih (htails run hrun) (hpath e he)).2 hlen' ⟨m, hm, hharm⟩
        have hmem : r' ∈ factorPass (optimizeWithin depth) rules := List.mem_flatMap.2 ⟨run, hrun, by rw [hr']; exact List.mem_cons_self⟩
        rw [← flatten_greedyRuns (headJoins arrayJoins) (factorPass (optimizeWithin depth) rules)] at hmem
        obtain ⟨run', hrun', hmem⟩ := List.mem_flatten.1 hmem
        obtain ⟨k, hk, -, hkeeps⟩ := hmerge run' hrun'
        have hlen'' := hlen₂ run' hrun'
        rw [hk, expandAll, expandAll, List.append_nil] at hlen''
        refine ⟨k, List.mem_flatMap.2 ⟨run', hrun', by rw [hk]; exact List.mem_cons_self⟩, x, y, ?_, ?_⟩
        · exact (htail ▸ hxy).trans (expandAll_sublist_of_run hrun)
        · exact (hexpand ▸ hyx.trans (expandAll_sublist_of_mem hr)).trans ((hkeeps hlen'').1 r' hmem)
      · obtain ⟨run, hrun, rfl⟩ := List.mem_map.1 hm
        obtain ⟨hrun, hmany⟩ := List.mem_filter.1 hrun
        obtain ⟨k, hk, -, hkeeps⟩ := hmerge run hrun
        have hlen' := hlen₂ run hrun
        rw [hk, expandAll, expandAll, List.append_nil] at hlen'
        obtain ⟨r₁, r₂, x, y, hpair, hx, hy, hyx⟩ := (hkeeps hlen').2 (of_decide_eq_true hmany) hharm
        refine ⟨k, List.mem_flatMap.2 ⟨run, hrun, by rw [hk]; exact List.mem_cons_self⟩, x, y, ?_, hyx⟩
        have hsub : List.Sublist run (factorPass (optimizeWithin depth) rules) := by
          have hflat := List.sublist_flatten_of_mem hrun
          rwa [flatten_greedyRuns] at hflat
        obtain ⟨run₁, run₂, hruns', hr₁, hr₂⟩ := pair_sublist_runs (fun run hrun => by
          obtain ⟨r', hr', -⟩ := hfactor run hrun
          exact ⟨r', hr'⟩) (hpair.trans hsub)
        have hback : ∀ run ∈ greedyRuns (headJoins prefixMatches) rules, ∀ r, factorRun (optimizeWithin depth) run = [r] →
            ∀ z ∈ r.expand shared, z ∈ expandAll shared run := by
          intro run hrun r hr z hz
          obtain ⟨r', hr', -, hshrinks, -⟩ := hfactor run hrun
          obtain ⟨rfl, -⟩ := List.cons.inj (hr.symm.trans hr')
          refine hshrinks.mem (hr ▸ hlen₁ run hrun) z ?_
          rw [expandAll, expandAll, List.append_nil]
          exact hz
        rw [expandAll_runs (headJoins prefixMatches)]
        exact pair_sublist_flatMap hruns' (hback run₁ (hruns'.subset List.mem_cons_self) r₁ hr₁ x hx)
          (hback run₂ (hruns'.subset (List.mem_cons_of_mem _ List.mem_cons_self)) r₂ hr₂ y hy)

/-! ## Flushing -/

/-- What flushing makes of one rule that was optimized. -/
def flushMember (levels : Nat) : Rule → Rule
  | .line es d => .line es d
  | .block es members => .block es (flush levels members)

theorem flush_succ (levels : Nat) (rules : List Rule) : flush (levels + 1) rules = (optimize rules).map (flushMember levels) := by
  rw [flush]
  refine List.map_congr_left fun r _ => ?_
  cases r <;> rfl

theorem length_flush_le {shared : List MatchEntry} (levels : Nat) {rules : List Rule} (hfilled : ∀ r ∈ rules, r.Filled)
    (hshared : ∀ e ∈ shared, e.Filled) :
    (expandAll shared (flush levels rules)).length ≤ (expandAll shared rules).length := by
  induction levels generalizing shared rules with
  | zero => exact (optimizeWithin_spec _ hfilled hshared).1.shrinks.length_le
  | succ levels ih =>
    have hoptimizes := (optimizeWithin_spec (mostEntries rules + 1) hfilled hshared).1
    refine le_trans ?_ hoptimizes.shrinks.length_le
    rw [flush_succ, expandAll_eq, expandAll_eq, List.flatMap_map]
    refine (length_flatMap_le fun r hr => ?_).1
    cases hoptimizes.filled r hr with
    | line => exact Nat.le_refl _
    | block hes _ hmembers =>
      rw [flushMember, Rule.expand, Rule.expand]
      exact ih hmembers (List.forall_mem_append.2 ⟨hshared, hes⟩)

/-- When flushing keeps the rules to one level more, it keeps those of every block. -/
theorem flush_keeps_members {shared : List MatchEntry} {levels : Nat} {rules : List Rule} (hfilled : ∀ r ∈ rules, r.Filled)
    (hshared : ∀ e ∈ shared, e.Filled) (hoptimize : expandAll shared (optimize rules) = expandAll shared rules)
    (hflush : expandAll shared (flush (levels + 1) rules) = expandAll shared rules) {es : List MatchEntry} {members : List Rule}
    (hblock : Rule.block es members ∈ optimize rules) :
    expandAll (shared ++ es) (flush levels members) = expandAll (shared ++ es) members := by
  have hoptimizes := (optimizeWithin_spec (mostEntries rules + 1) hfilled hshared).1
  rw [← hoptimize, flush_succ, expandAll_eq, expandAll_eq, List.flatMap_map] at hflush
  have hle : ∀ r ∈ optimize rules, ((flushMember levels r).expand shared).length ≤ (r.expand shared).length := by
    intro r hr
    cases hoptimizes.filled r hr with
    | line => exact Nat.le_refl _
    | block hes _ hmembers =>
      rw [flushMember, Rule.expand, Rule.expand]
      exact length_flush_le levels hmembers (List.forall_mem_append.2 ⟨hshared, hes⟩)
  have heq := (length_flatMap_le hle).2 (congrArg List.length hflush)
  have hmember := eq_of_flatMap_eq heq hflush _ hblock
  rwa [flushMember, Rule.expand, Rule.expand] at hmember

/-- When optimizing keeps a list of rules without duplicates, its merges are harmless. -/
theorem harmless_of_optimize {shared : List MatchEntry} {rules : List Rule} (hfilled : ∀ r ∈ rules, r.Filled)
    (hshared : ∀ e ∈ shared, e.Filled) (hnodup : (expandAll shared rules).Nodup)
    (hkeeps : expandAll shared (optimize rules) = expandAll shared rules) : ∀ m ∈ merges shared rules, m.harmless = true := by
  intro m hm
  by_contra hharm
  obtain ⟨r, hr, x, y, hxy, hyx⟩ := (optimizeWithin_spec (mostEntries rules + 1) hfilled hshared).2 (congrArg List.length hkeeps)
    ⟨m, hm, Bool.eq_false_iff.2 hharm⟩
  exact not_both_orders hnodup hxy (hkeeps ▸ hyx.trans (expandAll_sublist_of_mem hr))

/-- When flushing keeps a list of rules without duplicates, to any level, every merge it makes is harmless. -/
theorem harmless_of_flush {shared : List MatchEntry} (levels : Nat) {rules : List Rule} (hfilled : ∀ r ∈ rules, r.Filled)
    (hshared : ∀ e ∈ shared, e.Filled) (hnodup : (expandAll shared rules).Nodup)
    (hkeeps : ∀ n, expandAll shared (flush n rules) = expandAll shared rules) :
    ∀ m ∈ flushMerges levels shared rules, m.harmless = true := by
  induction levels generalizing shared rules with
  | zero => exact harmless_of_optimize hfilled hshared hnodup (hkeeps 0)
  | succ levels ih =>
    have hoptimizes := (optimizeWithin_spec (mostEntries rules + 1) hfilled hshared).1
    refine List.forall_mem_append.2 ⟨harmless_of_optimize hfilled hshared hnodup (hkeeps 0), fun m hm => ?_⟩
    obtain ⟨r, hr, hm⟩ := List.mem_flatMap.1 hm
    cases r with
    | line => cases hm
    | block es members =>
      cases hoptimizes.filled _ hr with
      | block hes _ hmembers =>
        have hnodup' : (expandAll shared (optimize rules)).Nodup := (hkeeps 0).symm ▸ hnodup
        have hsub := hnodup'.sublist (expandAll_sublist_of_mem hr)
        rw [Rule.expand] at hsub
        exact ih hmembers (List.forall_mem_append.2 ⟨hshared, hes⟩) hsub
          (fun n => flush_keeps_members hfilled hshared (hkeeps 0) (hkeeps (n + 1)) hr) m hm

/-- Flushing keeps the list of single rules, to whatever level, if every merge on the way is harmless; for rules without duplicates,
only then. -/
theorem flush_keeps_rules_iff (rules : List Rule) :
    (∀ levels, (∀ m ∈ flushMerges levels [] rules, m.harmless = true) → expandAll [] (flush levels rules) = expandAll [] rules) ∧
    ((∀ r ∈ rules, r.Filled) → (expandAll [] rules).Nodup →
      ((∀ levels, expandAll [] (flush levels rules) = expandAll [] rules) ↔
        ∀ levels, ∀ m ∈ flushMerges levels [] rules, m.harmless = true)) := by
  refine ⟨fun levels h => expandAll_flush levels h, fun hfilled hnodup => ⟨fun hkeeps levels => ?_, fun h levels => ?_⟩⟩
  · exact harmless_of_flush levels hfilled (fun e he => absurd he List.not_mem_nil) hnodup hkeeps
  · exact expandAll_flush levels (h levels)

/-- Two rules that differ in their source become one with an array, which stands for both of them. -/
theorem flush_keeps_sources :
    expandAll [] (flush 0 [.line [⟨"saddr", .array [.scalar "10.0.0.1"]⟩] (.jumpTo "ACCEPT"),
      .line [⟨"saddr", .array [.scalar "10.0.0.2"]⟩] (.jumpTo "ACCEPT")]) =
    [⟨[⟨"saddr", .scalar "10.0.0.1"⟩], .jumpTo "ACCEPT"⟩, ⟨[⟨"saddr", .scalar "10.0.0.2"⟩], .jumpTo "ACCEPT"⟩] := by
  rw [(flush_keeps_rules_iff _).1 0 (by decide +kernel)]
  decide +kernel

/-- Two interfaces with the same two rules: one outgoing interface is accepted, the others go to a chain of their own. -/
def twoInterfaces : List Rule :=
  [.line [⟨"interface", .scalar "eth0"⟩, ⟨"outerface", .scalar "eth2"⟩] (.jumpTo "ACCEPT"),
    .line [⟨"interface", .scalar "eth0"⟩] (.jumpTo "audit"),
    .line [⟨"interface", .scalar "eth1"⟩, ⟨"outerface", .scalar "eth2"⟩] (.jumpTo "ACCEPT"),
    .line [⟨"interface", .scalar "eth1"⟩] (.jumpTo "audit")]

/-- The blocks of both interfaces become one block behind an array, which stands for the rules in another order. -/
theorem optimize_swaps_rules :
    expandAll [] (optimize twoInterfaces) =
      [⟨[⟨"interface", .scalar "eth0"⟩, ⟨"outerface", .scalar "eth2"⟩], .jumpTo "ACCEPT"⟩,
        ⟨[⟨"interface", .scalar "eth1"⟩, ⟨"outerface", .scalar "eth2"⟩], .jumpTo "ACCEPT"⟩,
        ⟨[⟨"interface", .scalar "eth0"⟩], .jumpTo "audit"⟩, ⟨[⟨"interface", .scalar "eth1"⟩], .jumpTo "audit"⟩] ∧
    expandAll [] (optimize twoInterfaces) ≠ expandAll [] twoInterfaces := by
  decide +kernel

end Ferm.Importer
