import Ferm.Importer.Blocks

/-!
# Parsed rules stand for something

No option of a parsed rule has an empty array, so that the rule stands for a rule without arrays at least.
-/

namespace Ferm.Importer

theorem MatchEntry.Filled.alternatives_ne_zero {e : MatchEntry} (h : e.Filled) : e.alternatives ≠ 0 := by
  obtain ⟨name, value⟩ := e
  cases value with
  | array vs =>
    cases vs with
    | nil => exact absurd rfl h
    | cons v vs => simp [alternatives, elementsOf]
  | _ => simp [alternatives, elementsOf]

theorem combinations_ne_zero {es : List MatchEntry} (h : ∀ e ∈ es, e.Filled) : combinations es ≠ 0 := by
  induction es with
  | nil => simp [combinations]
  | cons e es ih =>
    obtain ⟨he, hes⟩ := List.forall_mem_cons.1 h
    obtain ⟨c, hc⟩ := Multiset.exists_mem_of_ne_zero he.alternatives_ne_zero
    obtain ⟨cs, hcs⟩ := Multiset.exists_mem_of_ne_zero (ih hes)
    have hmem : c :: cs ∈ combinations (e :: es) :=
      Multiset.mem_bind.2 ⟨c, hc, Multiset.mem_map.2 ⟨cs, hcs, rfl⟩⟩
    intro hzero
    rw [hzero] at hmem
    exact Multiset.notMem_zero _ hmem

/-- The options that are read so far have no empty array. -/
def Draft.Filled (r : Draft) : Prop := ∀ e ∈ r.entries, e.Filled

namespace Draft

theorem Filled.withCur {r : Draft} (h : r.Filled) {es : List MatchEntry} (hes : (∀ e ∈ r.cur, e.Filled) → ∀ e ∈ es, e.Filled) :
    (r.withCur es).Filled := by
  rw [Draft.withCur]
  cases ht : r.data.target with
  | some target => exact h
  | none =>
    refine hes ?_
    rw [cur, ht]
    exact h

theorem Filled.push {r : Draft} (h : r.Filled) {e : MatchEntry} (he : e.Filled) : (r.push e).Filled :=
  h.withCur fun hcur => List.forall_mem_append.2 ⟨hcur, List.forall_mem_singleton.2 he⟩

theorem Filled.mergeKeywords {r : Draft} (h : r.Filled) (keywords : Option Keywords) : (r.mergeKeywords keywords).Filled := by
  cases keywords <;> exact h

theorem Filled.addPortKeywords {r : Draft} (h : r.Filled) (proto : String) : (r.addPortKeywords proto).Filled := by
  rw [Draft.addPortKeywords]
  split
  · exact h.mergeKeywords _
  · exact h

theorem Filled.ite {r r' : Draft} (h : r.Filled) (h' : r'.Filled) {b : Bool} : (if b then r else r').Filled := by
  cases b <;> assumption

theorem Filled.setProtocol {r : Draft} (h : r.Filled) (defs : Defs) {value : Value} (hv : value ≠ .array []) :
    (r.setProtocol defs value).Filled := by
  have hpush : (Draft.push { r with data := { r.data with proto := value } } ⟨"protocol", value⟩).Filled :=
    Filled.push (r := { r with data := { r.data with proto := value } }) h hv
  unfold Draft.setProtocol
  cases value with
  | scalar proto => exact (hpush.mergeKeywords _).addPortKeywords _
  | _ => exact hpush

theorem Filled.loadMatch {r : Draft} (h : r.Filled) (defs : Defs) (param : String) : (r.loadMatch defs param).Filled := by
  unfold Draft.loadMatch
  refine (Filled.mergeKeywords (Filled.ite ?_ (Filled.push ?_ ?_)) _).addPortKeywords _
  · exact h
  · exact h
  · intro he
    cases he

theorem Filled.addOption {r : Draft} (h : r.Filled) (option : String) (keyword : Keyword) {value : Value}
    (hv : value ≠ .array []) : (r.addOption option keyword value).Filled := by
  unfold Draft.addOption
  dsimp only
  split
  · split
    · refine h.withCur fun hcur => List.forall_mem_append.2 ⟨fun e he => hcur e (List.mem_of_mem_dropLast he), ?_⟩
      refine List.forall_mem_singleton.2 fun he => ?_
      cases he
    · exact h.push hv
  · exact h.push hv

theorem Filled.jumpTo {r : Draft} (h : r.Filled) (defs : Defs) (target : String) : (r.jumpTo defs target).Filled := by
  unfold Draft.jumpTo
  refine Filled.mergeKeywords ?_ _
  exact h

end Draft

theorem commaList_ne (token : String) : commaList token ≠ .array [] := by
  intro he
  have hsplit : (token.toList.splitOn ',') = [] := by
    rw [commaList, Value.array.injEq, splitText, List.map_map, List.map_eq_nil_iff] at he
    exact he
  exact List.splitOn_ne_nil _ _ hsplit

theorem parseCodes_ne {lineno : Nat} {codes : List Char} {tokens tokens' : List String} {parts : List Value}
    (h : parseCodes lineno codes tokens = .ok (parts, tokens')) : ∀ part ∈ parts, part ≠ .array [] := by
  induction codes generalizing tokens parts tokens' with
  | nil =>
    cases h
    simp
  | cons code codes ih =>
    cases tokens with
    | nil => cases h
    | cons token tokens =>
      obtain ⟨part, hpart, h⟩ := Except.bind_eq_ok.1 h
      obtain ⟨⟨parts', rest⟩, hparts, h⟩ := Except.bind_eq_ok.1 h
      cases h
      refine List.forall_mem_cons.2 ⟨?_, ih hparts⟩
      rw [parseCode] at hpart
      split at hpart
      · cases hpart
        intro he
        cases he
      · split at hpart
        · cases hpart
          exact commaList_ne token
        · cases hpart

/-- No option has an empty array. -/
theorem parseValue_ne {lineno : Nat} {option : String} {params : KeywordParams} {tokens tokens' : List String} {value : Value}
    (h : parseValue lineno option params tokens = .ok (value, tokens')) : value ≠ .array [] := by
  cases params with
  | flag =>
    cases h
    intro he
    cases he
  | function name =>
    obtain ⟨⟨token, rest⟩, -, h⟩ := Except.bind_eq_ok.1 h
    cases h
    exact commaList_ne token
  | codes letters =>
    rw [parseValue] at h
    split at h
    · obtain ⟨⟨token, rest⟩, -, h⟩ := Except.bind_eq_ok.1 h
      cases h
      intro he
      cases he
    · split at h
      · cases h
      · obtain ⟨⟨parts, rest⟩, hparts, h⟩ := Except.bind_eq_ok.1 h
        have hne := parseCodes_ne hparts
        dsimp only at h
        split at h
        · cases h
          exact hne _ (List.mem_singleton_self _)
        · cases h
          intro he
          cases he
  | count number =>
    rw [parseValue] at h
    split at h
    · obtain ⟨⟨token, rest⟩, -, h⟩ := Except.bind_eq_ok.1 h
      cases h
      intro he
      cases he
    · obtain ⟨⟨values, rest⟩, -, h⟩ := Except.bind_eq_ok.1 h
      cases h
      intro he
      cases he

theorem parseDefOption_ne {lineno : Nat} {option : String} {params : KeywordParams} {preNegation negated : Bool}
    {tokens tokens' : List String} {value : Value}
    (h : parseDefOption lineno option params preNegation negated tokens = .ok (value, tokens')) : value ≠ .array [] := by
  rw [parseDefOption] at h
  generalize fetchNegated tokens = negation at h
  obtain ⟨here, rest⟩ := negation
  obtain ⟨⟨value', rest'⟩, hvalue, h⟩ := Except.bind_eq_ok.1 h
  have hne := parseValue_ne hvalue
  obtain ⟨rfl, -⟩ := Prod.mk.inj (Except.ok.inj h)
  cases negated || here with
  | false => exact hne
  | true =>
    intro he
    cases preNegation <;> cases he

theorem parseOption_filled {defs : Defs} {lineno : Nat} {r r' : Draft} {option : String} {preNegated : Bool}
    {tokens tokens' : List String} (hr : r.Filled)
    (h : parseOption defs lineno r option preNegated tokens = .ok (r', tokens')) : r'.Filled := by
  unfold parseOption at h
  dsimp only at h
  split at h
  · obtain ⟨⟨value, rest⟩, hvalue, h⟩ := Except.bind_eq_ok.1 h
    cases h
    exact hr.setProtocol defs (parseDefOption_ne hvalue)
  · split at h
    · cases tokens with
      | nil => cases h
      | cons param tokens =>
        obtain ⟨_, -, h⟩ := Except.bind_eq_ok.1 h
        cases h
        exact hr.loadMatch defs param
    · split at h
      · obtain ⟨⟨value, rest⟩, hvalue, h⟩ := Except.bind_eq_ok.1 h
        cases h
        exact hr.addOption _ _ (parseDefOption_ne hvalue)
      · split at h
        · cases tokens with
          | nil => cases h
          | cons target tokens =>
            obtain ⟨_, -, h⟩ := Except.bind_eq_ok.1 h
            cases h
            exact hr.jumpTo defs target
        · split at h
          · cases tokens with
            | nil => cases h
            | cons target tokens =>
              obtain ⟨_, -, h⟩ := Except.bind_eq_ok.1 h
              cases h
              exact hr
          · cases h

theorem parseOptions_filled {defs : Defs} {lineno n : Nat} {r r' : Draft} {tokens : List String} (hr : r.Filled)
    (h : parseOptions defs lineno n r tokens = .ok r') : r'.Filled := by
  induction n generalizing r tokens with
  | zero =>
    cases h
    exact hr
  | succ n ih =>
    cases tokens with
    | nil =>
      cases h
      exact hr
    | cons token tokens =>
      unfold parseOptions at h
      split at h
      · obtain ⟨⟨r₁, rest⟩, hoption, h⟩ := Except.bind_eq_ok.1 h
        exact ih (parseOption_filled hr hoption) h
      · split at h
        · split at h
          · cases h
          · split at h
            · cases h
            · obtain ⟨⟨r₁, rest⟩, hoption, h⟩ := Except.bind_eq_ok.1 h
              exact ih (parseOption_filled hr hoption) h
        · exact ih hr h

/-- A parsed rule stands for a rule without arrays, at least. -/
theorem singles_ne_zero_of_parseRule {defs : Defs} {lineno : Nat} {rest : String} {r : Draft}
    (h : parseRule defs lineno rest = .ok r) : (Rule.line r.entries r.data).singles ≠ 0 := by
  have hfilled : r.Filled := parseOptions_filled (Draft.Filled.mergeKeywords (by simp [Draft.Filled]) _) h
  rw [Rule.singles, Ne, Multiset.map_eq_zero]
  exact combinations_ne_zero hfilled

end Ferm.Importer
