import Ferm.Nft.Collapse
import Ferm.Nft.Evaluate

/-!
# Merging runs into sets

A run is merged into its first rule with the operands of all of them at one position, which is right when the other statements of
its rules do the same with every packet. `stmtEqual` makes sure of that except for one pair of matches: `staleEqual`.
-/

namespace Ferm

variable {P : Type}

/-! ## Equal statements -/

/-- A folded match and a match without a selector that has the text the folded one had for its first operand. The two are compared
by their texts and taken for equal, though the folded match holds for more operands. -/
def staleEqual : NftStatement → NftStatement → Bool
  | .nftMatch ma, .nftMatch mb =>
    ma.expr = mb.expr && (ma.elements.isSome && mb.setKey.isNone || ma.setKey.isNone && mb.elements.isSome)
  | _, _ => false

/-- Two lists of folded operands that are equal in canonical order hold for the same packets. -/
theorem any_of_elementsEqual {as bs : Option (List String)} (h : elementsEqual as bs = true) (f : String → Bool)
    (d : List String) : (as.getD d).any f = (bs.getD d).any f := by
  rcases as with _ | as <;> rcases bs with _ | bs
  · rfl
  · cases h
  · cases h
  · have hsort : orderElements as = orderElements bs := of_decide_eq_true h
    have hperm : as.Perm bs :=
      (orderElements_perm as).symm.trans (hsort ▸ orderElements_perm bs)
    rw [Option.getD_some, Option.getD_some, Bool.eq_iff_iff, List.any_eq_true, List.any_eq_true]
    simp only [hperm.mem_iff]

/-- Equal matches hold for the same packets, unless they are equal by the text of a folded one. -/
theorem holds_of_stmtEqual (R : Reading P) (p : P) {ma mb : NftMatch}
    (h : stmtEqual (.nftMatch ma) (.nftMatch mb) = true) (hs : staleEqual (.nftMatch ma) (.nftMatch mb) = false) :
    ma.holds R p = mb.holds R p := by
  rw [stmtEqual] at h
  split at h
  · rename_i hkeys
    obtain ⟨key, hkey⟩ := Option.isSome_iff_exists.1 hkeys.1
    simp only [Bool.and_eq_true, decide_eq_true_eq] at h
    obtain ⟨⟨hk, he⟩, hes⟩ := h
    rw [ma.holds_eq_any R p hkey, mb.holds_eq_any R p (hk ▸ hkey), he]
    exact any_of_elementsEqual hes _ _
  · rename_i hkeys
    have htext : ma.expr = mb.expr := of_decide_eq_true h
    have hfold : ∀ m : NftMatch, m.setKey = none → m.elements = none := by
      intro m hm
      rcases m.keyed_cases with ⟨-, -, hes⟩ | ⟨k, e, hk, -⟩ | ⟨k, es, hk, -⟩
      · exact hes
      · rw [hk] at hm
        cases hm
      · rw [hk] at hm
        cases hm
    -- one of the two has no selector; if the other one is folded they are equal by its old text
    have hnone : ma.elements = none ∧ mb.elements = none := by
      rcases ha : ma.setKey with _ | ka
      · have hb : (ma.elements.isSome = true → mb.setKey.isSome = true) ∧ mb.elements = none := by
          simpa [staleEqual, htext, ha] using hs
        exact ⟨hfold ma ha, hb.2⟩
      · have hb : mb.setKey = none := by simpa [ha] using hkeys
        refine ⟨?_, hfold mb hb⟩
        simpa [staleEqual, htext, ha, hb] using hs
    rw [NftMatch.holds, NftMatch.holds, hnone.1, hnone.2, htext]

/-- Equal statements do the same with every packet. -/
theorem stepOn_of_stmtEqual (R : Reading P) (p : P) {a b : NftStatement} (h : stmtEqual a b = true)
    (hs : staleEqual a b = false) (ha : ∀ key pairs, a ≠ .nftVmap key pairs) : a.stepOn R p = b.stepOn R p := by
  rcases a with ma | va | ⟨ka, pa⟩ | _ | _ | _ | _
  · rcases b with mb | _ | _ | _ | _ | _ | _
    · rw [NftStatement.stepOn, NftStatement.stepOn, holds_of_stmtEqual R p h hs]
    all_goals cases h
  · rcases b with _ | vb | _ | _ | _ | _ | _
    · cases h
    · have hv : va = vb := of_decide_eq_true h
      rw [hv]
    all_goals cases h
  · exact absurd rfl (ha ka pa)
  all_goals
    rcases b with _ | _ | _ | _ | _ | _ | _
    all_goals first | rfl | cases h

/-! ## One run -/

/-- No rule of a run equals its first rule by the text of a folded match. -/
def runFaithful : List NftRule → Bool
  | [] => true
  | base :: rest => rest.all fun r => (base.statements.zip r.statements).all fun pair => !staleEqual pair.1 pair.2

/-- Whether the match at `axis` holds. -/
def axisHolds (R : Reading P) (p : P) (axis : Nat) (r : NftRule) : Bool :=
  match r.statements[axis]? with
  | some (.nftMatch m) => m.holds R p
  | _ => false

theorem axisHolds_eq (R : Reading P) (p : P) {axis : Nat} {r : NftRule} {m : NftMatch}
    (h : r.statements[axis]? = some (.nftMatch m)) : axisHolds R p axis r = m.holds R p := by
  rw [axisHolds, h]

/-- A rule of a run does with a packet what the first rule does when the match at the axis holds, or does not. -/
theorem steps_of_sameBut (R : Reading P) (p : P) {axis : Nat} {base r : NftRule} (h : SameBut axis base r)
    (hlin : base.Linear) (hs : ∀ pair ∈ base.statements.zip r.statements, staleEqual pair.1 pair.2 = false) :
    r.steps R p = (base.steps R p).set axis (if axisHolds R p axis r then .next else .skip) := by
  apply List.ext_getElem?
  intro k
  obtain ⟨key, ma, mb, ha, hb, -, -⟩ := h.selector
  rw [List.getElem?_set, NftRule.steps, NftRule.steps, List.getElem?_map, List.getElem?_map, List.length_map]
  split
  · rename_i heq
    subst heq
    have hlt : axis < base.statements.length := (List.getElem?_eq_some_iff.1 ha).1
    rw [if_pos hlt, hb, axisHolds_eq R p hb]
    rfl
  · rename_i hne
    rcases hk : base.statements[k]? with _ | sa
    · have hlen : base.statements.length ≤ k := List.getElem?_eq_none_iff.1 hk
      rw [List.getElem?_eq_none_iff.2 (h.length ▸ hlen)]
    · have hlt : k < r.statements.length := h.length ▸ (List.getElem?_eq_some_iff.1 hk).1
      have hr : r.statements[k]? = some r.statements[k] := List.getElem?_eq_getElem hlt
      have hpair : (sa, r.statements[k]) ∈ base.statements.zip r.statements := by
        rw [List.mem_iff_getElem?]
        exact ⟨k, by rw [List.getElem?_zip_eq_some]; exact ⟨hk, hr⟩⟩
      have hmem : sa ∈ base.statements := List.mem_of_getElem? hk
      have heq : sa.stepOn R p = (r.statements[k]).stepOn R p :=
        stepOn_of_stmtEqual R p (h.others k (Ne.symm hne) _ _ hk hr) (hs _ hpair) fun setKey pairs he =>
          hlin setKey pairs (he ▸ hmem)
      rw [hr, Option.map_some, Option.map_some, heq]

/-- The operands of a run hold when the match of one of its rules does. -/
theorem holds_fold (R : Reading P) (p : P) {axis : Nat} {run : List NftRule} {anchor : NftMatch} {key : String}
    (hkey : anchor.setKey = some key)
    (h : ∀ r ∈ run, ∃ m, r.statements[axis]? = some (.nftMatch m) ∧ m.setKey = some key) :
    (anchor.fold (run.flatMap (operandsAt axis))).holds R p = run.any (axisHolds R p axis) := by
  have hfold : (anchor.fold (run.flatMap (operandsAt axis))).holds R p =
      (run.flatMap (operandsAt axis)).any fun e => R.holds p (key ++ " " ++ e) := by
    unfold NftMatch.fold
    split
    · rename_i k hk
      rw [hkey] at hk
      cases hk
      rfl
    · rename_i hk
      rw [hkey] at hk
      cases hk
  rw [hfold, List.any_flatMap]
  have hrule : ∀ r ∈ run, ((operandsAt axis r).any fun e => R.holds p (key ++ " " ++ e)) = axisHolds R p axis r := by
    intro r hr
    obtain ⟨m, hm, hmkey⟩ := h r hr
    rw [axisHolds_eq R p hm, m.holds_eq_any R p hmkey, operandsAt, hm]
  rw [Bool.eq_iff_iff, List.any_eq_true, List.any_eq_true]
  constructor
  · rintro ⟨r, hr, hholds⟩
    exact ⟨r, hr, hrule r hr ▸ hholds⟩
  · rintro ⟨r, hr, hholds⟩
    exact ⟨r, hr, (hrule r hr).symm ▸ hholds⟩

/-- The statements of a merged run are those of its first rule, with all operands of the run at the axis. -/
theorem mergeRun_statements {base : NftRule} {axis : Nat} {anchor : NftMatch} (rest : List NftRule)
    (h : base.statements[axis]? = some (.nftMatch anchor)) :
    (mergeRun base rest axis).statements =
      base.statements.set axis (.nftMatch (anchor.fold ((base :: rest).flatMap (operandsAt axis)))) := by
  unfold mergeRun
  rw [h]

/-- The verdict of a rule for a packet that meets, or does not meet, the match at `axis`. -/
def NftRule.offerIf (R : Reading P) (p : P) (axis : Nat) (r : NftRule) (meets : Bool) : Option String :=
  (runSteps ((r.steps R p).set axis (if meets then .next else .skip))).verdict?

/-- A packet that does not meet the match gets no verdict, or has it from a statement before the match. -/
theorem offerIf_false (R : Reading P) (p : P) (axis : Nat) (r : NftRule) :
    r.offerIf R p axis false = none ∨ r.offerIf R p axis false = r.offerIf R p axis true := by
  rcases runSteps_set_skip (r.steps R p) axis with h | h
  · exact .inl (congrArg Step.verdict? h)
  · exact .inr (congrArg Step.verdict? h)

theorem offer_eq_offerIf (R : Reading P) (p : P) {axis : Nat} {r : NftRule} {m : NftMatch}
    (h : r.statements[axis]? = some (.nftMatch m)) : r.offer R p = r.offerIf R p axis (axisHolds R p axis r) := by
  have hstep : (r.steps R p)[axis]? = some (if axisHolds R p axis r then .next else .skip) := by
    rw [NftRule.steps, List.getElem?_map, h, axisHolds_eq R p h]
    rfl
  obtain ⟨hlt, hget⟩ := List.getElem?_eq_some_iff.1 hstep
  rw [NftRule.offer, NftRule.offerIf, ← hget, List.set_getElem_self]

theorem offer_of_sameBut (R : Reading P) (p : P) {axis : Nat} {base r : NftRule} (h : SameBut axis base r)
    (hlin : base.Linear) (hs : ∀ pair ∈ base.statements.zip r.statements, staleEqual pair.1 pair.2 = false) :
    r.offer R p = base.offerIf R p axis (axisHolds R p axis r) := by
  rw [NftRule.offer, steps_of_sameBut R p h hlin hs, NftRule.offerIf]

/-- The rule a run becomes has the verdict of the run for every packet. -/
theorem offer_mergeRun (R : Reading P) (p : P) {axis : Nat} {base : NftRule} {rest : List NftRule} (hne : rest ≠ [])
    (h : ∀ r ∈ rest, SameBut axis base r) (hlin : base.Linear) (hs : runFaithful (base :: rest) = true) :
    (mergeRun base rest axis).offer R p = firstMatch R (base :: rest) p := by
  have hstale : ∀ r ∈ rest, ∀ pair ∈ base.statements.zip r.statements, staleEqual pair.1 pair.2 = false := by
    simpa [runFaithful, List.all_eq_true] using hs
  obtain ⟨r0, hr0⟩ := List.exists_mem_of_ne_nil rest hne
  obtain ⟨key, anchor, -, hanchor, -, hkey, -⟩ := (h r0 hr0).selector
  have haxis : ∀ r ∈ base :: rest, ∃ m, r.statements[axis]? = some (.nftMatch m) ∧ m.setKey = some key := by
    intro r hr
    rcases List.mem_cons.1 hr with rfl | hr
    · exact ⟨anchor, hanchor, hkey⟩
    · obtain ⟨k, ma, mb, ha, hb, hka, hkb⟩ := (h r hr).selector
      rw [hanchor] at ha
      cases ha
      rw [hkey] at hka
      cases hka
      exact ⟨mb, hb, hkb⟩
  have hmerged : (mergeRun base rest axis).offer R p =
      base.offerIf R p axis ((base :: rest).any (axisHolds R p axis)) := by
    rw [← holds_fold R p hkey haxis, NftRule.offer, NftRule.steps, mergeRun_statements rest hanchor, List.map_set]
    rfl
  have hrule : ∀ r ∈ base :: rest, r.offer R p =
      if axisHolds R p axis r then base.offerIf R p axis true else base.offerIf R p axis false := by
    intro r hr
    have hoffer : r.offer R p = base.offerIf R p axis (axisHolds R p axis r) := by
      rcases List.mem_cons.1 hr with rfl | hr
      · exact offer_eq_offerIf R p hanchor
      · exact offer_of_sameBut R p (h r hr) hlin (hstale r hr)
    rw [hoffer]
    cases axisHolds R p axis r <;> rfl
  rw [hmerged, firstMatch_eq_ite (by simp) (offerIf_false R p axis base) hrule]
  cases (base :: rest).any (axisHolds R p axis) <;> rfl

/-- A run becomes rules that decide every packet as it does. -/
theorem firstMatch_closeRun (R : Reading P) (p : P) {run : List NftRule} (hrun : IsRun joinsRun run)
    (hlin : ∀ r ∈ run, r.Linear) (hs : runFaithful run = true) :
    firstMatch R (closeRun run) p = firstMatch R run p := by
  rcases run with _ | ⟨base, _ | ⟨second, rest⟩⟩
  · rfl
  · rfl
  · obtain ⟨axis, haxis⟩ := exists_axis_of_isRun hrun
    rw [closeRun, haxis second (List.mem_cons_self ..)]
    rw [firstMatch_singleton]
    exact offer_mergeRun R p (by simp) (fun r hr => sameBut_of_collapseAxis (haxis r hr))
      (hlin base (List.mem_cons_self ..)) hs

/-- No verdict map appears. -/
theorem linear_closeRun {run : List NftRule} (hlin : ∀ r ∈ run, r.Linear) : ∀ r ∈ closeRun run, r.Linear := by
  rcases run with _ | ⟨base, _ | ⟨second, rest⟩⟩
  · exact hlin
  · exact hlin
  · rw [closeRun]
    split
    · intro r hr
      cases List.mem_singleton.1 hr
      intro setKey pairs hmem
      have hbase := hlin base (List.mem_cons_self ..) setKey pairs
      unfold mergeRun at hmem
      split at hmem
      · rcases List.mem_or_eq_of_mem_set hmem with hmem | hmem
        · exact hbase hmem
        · cases hmem
      · exact hbase hmem
    · exact hlin

/-! ## One pass -/

/-- Every run of a pass is faithful. -/
def passFaithful (rules : List NftRule) : Bool := (greedyRuns joinsRun rules).all runFaithful

/-- A faithful pass decides every packet as before. -/
theorem firstMatch_collapseOnePass (R : Reading P) (p : P) {rules : List NftRule} (hlin : ∀ r ∈ rules, r.Linear)
    (hs : passFaithful rules = true) : firstMatch R (collapseOnePass rules).1 p = firstMatch R rules p := by
  rw [collapseOnePass]
  have hruns : ∀ run ∈ greedyRuns joinsRun rules, firstMatch R (closeRun run) p = firstMatch R run p := fun run hrun =>
    firstMatch_closeRun R p (isRun_of_mem hrun) (fun r hr => hlin r (mem_of_mem_greedyRuns hrun hr))
      (List.all_eq_true.1 hs run hrun)
  rw [firstMatch_flatMap hruns, flatten_greedyRuns]

theorem linear_collapseOnePass {rules : List NftRule} (hlin : ∀ r ∈ rules, r.Linear) :
    ∀ r ∈ (collapseOnePass rules).1, r.Linear := by
  intro r hr
  obtain ⟨run, hrun, hmem⟩ := List.mem_flatMap.1 hr
  exact linear_closeRun (fun r hr => hlin r (mem_of_mem_greedyRuns hrun hr)) r hmem

/-! ## The passes -/

/-- Every pass over the list is faithful, until one merges nothing. -/
def passesFaithful : Nat → List NftRule → Bool
  | 0, _ => true
  | fuel + 1, rules =>
    let pass := collapseOnePass rules
    passFaithful rules && (!pass.2 || passesFaithful fuel pass.1)

/-- Faithful passes decide every packet as the list they start from. -/
theorem firstMatch_collapseSets (R : Reading P) (p : P) {fuel : Nat} {rules : List NftRule}
    (hlin : ∀ r ∈ rules, r.Linear) (hs : passesFaithful fuel rules = true) :
    firstMatch R (collapseSets fuel rules) p = firstMatch R rules p := by
  induction fuel generalizing rules with
  | zero => rfl
  | succ fuel ih =>
    rw [passesFaithful, Bool.and_eq_true, Bool.or_eq_true] at hs
    obtain ⟨hpass, hrest⟩ := hs
    rw [collapseSets, ← firstMatch_collapseOnePass R p hlin hpass]
    split
    · rename_i hchanged
      refine ih (linear_collapseOnePass hlin) (hrest.resolve_left ?_)
      simpa using hchanged
    · rfl

/-- The set passes preserve verdicts: when in no pass a run merges rules that are equal only by the text of a folded match, the
passes come to an end and the list they end with gives every packet the verdict of the list they began with. -/
theorem collapse_preserves_verdicts {rules : List NftRule} (hlin : ∀ r ∈ rules, r.Linear)
    (hs : passesFaithful rules.length rules = true) :
    (collapseOnePass (collapseSets rules.length rules)).2 = false ∧
      ∀ (P : Type) (R : Reading P) (p : P),
        firstMatch R (collapseSets rules.length rules) p = firstMatch R rules p :=
  ⟨collapseSets_settled (Nat.le_refl _), fun _ R p => firstMatch_collapseSets R p hlin hs⟩

/-- Two ports of one host and a third rule for another host are merged as far as they can be, the verdicts kept. -/
theorem collapse_preserves_ports :
    let port (host e : String) : NftRule :=
      { statements := [.nftMatch (.single "ip saddr" host (by decide)), .nftMatch (.single "tcp dport" e (by decide)),
          .nftVerdict "accept"] }
    let rules := [port "10.0.0.1" "22", port "10.0.0.1" "80", port "10.0.0.2" "22"]
    (collapseOnePass (collapseSets 3 rules)).2 = false ∧
      ∀ (P : Type) (R : Reading P) (p : P), firstMatch R (collapseSets 3 rules) p = firstMatch R rules p := by
  intro port rules
  have hs : passesFaithful 3 rules = true := by decide +kernel
  refine @collapse_preserves_verdicts rules ?_ hs
  intro r hr setKey pairs hmem
  simp [rules, port] at hr
  rcases hr with rfl | rfl | rfl <;> simp at hmem

/-- Three rules without verdict maps whose passes change a verdict: the ports of the first host are merged, and the merged match then
equals the third rule's match on port 22, which has no selector, by its text. The other host gets into port 23. -/
theorem collapse_widens :
    ¬ ∀ rules : List NftRule, (∀ r ∈ rules, r.Linear) → ∀ (P : Type) (R : Reading P) (p : P),
        firstMatch R (collapseSets rules.length rules) p = firstMatch R rules p := by
  intro h
  let rule (host : String) (port : NftMatch) : NftRule :=
    { statements := [.nftMatch (.single "ip saddr" host (by decide)), .nftMatch port, .nftVerdict "accept"] }
  let rules := [rule "10.0.0.1" (.single "tcp dport" "22" (by decide)), rule "10.0.0.1" (.single "tcp dport" "23" (by decide)),
    rule "10.0.0.2" { expr := "tcp dport 22" }]
  let R : Reading Unit :=
    { holds := fun _ text => text = "ip saddr 10.0.0.2" || text = "tcp dport 23"
      verdict := fun _ verdict => .done verdict }
  have hlin : ∀ r ∈ rules, r.Linear := by
    intro r hr setKey pairs hmem
    simp [rules, rule] at hr
    rcases hr with rfl | rfl | rfl <;> simp at hmem
  have hbefore : firstMatch R rules () = none := by decide +kernel
  have hafter : firstMatch R (collapseSets 3 rules) () = some "accept" := by decide +kernel
  have := h rules hlin Unit R ()
  rw [hbefore] at this
  rw [show rules.length = 3 from rfl, hafter] at this
  cases this

/-! ## Lists on which every pass is faithful -/

/-- No match without a selector has the text of a match with one. -/
def TextsApart (rules : List NftRule) : Prop :=
  ∀ a ∈ rules, ∀ b ∈ rules, ∀ ma mb, .nftMatch ma ∈ a.statements → .nftMatch mb ∈ b.statements → ma.setKey = none →
    mb.setKey.isSome → ma.expr ≠ mb.expr

/-- A pass makes no new texts: every match of it has the selector and the text of one before it. -/
theorem exists_match_of_pass {rules : List NftRule} {r : NftRule} {m : NftMatch} (hr : r ∈ (collapseOnePass rules).1)
    (hm : .nftMatch m ∈ r.statements) :
    ∃ r' ∈ rules, ∃ m', .nftMatch m' ∈ r'.statements ∧ m'.setKey = m.setKey ∧ m'.expr = m.expr := by
  obtain ⟨run, hrun, hmem⟩ := List.mem_flatMap.1 hr
  have hself : r ∈ run → ∃ r' ∈ rules, ∃ m', .nftMatch m' ∈ r'.statements ∧ m'.setKey = m.setKey ∧ m'.expr = m.expr :=
    fun hr => ⟨r, mem_of_mem_greedyRuns hrun hr, m, hm, rfl, rfl⟩
  rcases run with _ | ⟨base, _ | ⟨second, rest⟩⟩
  · exact hself hmem
  · exact hself hmem
  · rw [closeRun] at hmem
    split at hmem
    · rename_i axis haxis
      cases List.mem_singleton.1 hmem
      have hbase : base ∈ rules := mem_of_mem_greedyRuns hrun (List.mem_cons_self ..)
      obtain ⟨key, anchor, -, hanchor, -, hkey, -⟩ := (sameBut_of_collapseAxis haxis).selector
      rw [mergeRun_statements _ hanchor] at hm
      rcases List.mem_or_eq_of_mem_set hm with hm | hm
      · exact ⟨base, hbase, m, hm, rfl, rfl⟩
      · cases hm
        refine ⟨base, hbase, anchor, List.mem_of_getElem? hanchor, ?_, ?_⟩
        · rw [NftMatch.fold_setKey]
        · rw [NftMatch.fold_expr]
    · exact hself hmem

theorem TextsApart.pass {rules : List NftRule} (h : TextsApart rules) : TextsApart (collapseOnePass rules).1 := by
  intro a ha b hb ma mb hma hmb hnone hsome
  obtain ⟨a', ha', ma', hma', hka, hea⟩ := exists_match_of_pass ha hma
  obtain ⟨b', hb', mb', hmb', hkb, heb⟩ := exists_match_of_pass hb hmb
  rw [← hea, ← heb]
  exact h a' ha' b' hb' ma' mb' hma' hmb' (hka.trans hnone) (hkb ▸ hsome)

theorem TextsApart.passFaithful {rules : List NftRule} (h : TextsApart rules) : passFaithful rules = true := by
  have hstale : ∀ a ∈ rules, ∀ b ∈ rules, ∀ sa ∈ a.statements, ∀ sb ∈ b.statements, staleEqual sa sb = false := by
    intro a ha b hb sa hsa sb hsb
    have hfolded (m : NftMatch) (hm : m.elements.isSome) : m.setKey.isSome := by
      rcases m.keyed_cases with ⟨-, -, hes⟩ | ⟨key, e, hk, -⟩ | ⟨key, es, hk, -⟩
      · simp [hes] at hm
      · simp [hk]
      · simp [hk]
    by_contra hstale
    rcases sa with ma | _ | _ | _ | _ | _ | _
    · rcases sb with mb | _ | _ | _ | _ | _ | _
      · simp only [staleEqual, Bool.not_eq_false, Bool.and_eq_true, Bool.or_eq_true, decide_eq_true_eq,
          Option.isNone_iff_eq_none] at hstale
        obtain ⟨htext, ⟨hfold, hnone⟩ | ⟨hnone, hfold⟩⟩ := hstale
        · exact h b hb a ha mb ma hsb hsa hnone (hfolded ma hfold) htext.symm
        · exact h a ha b hb ma mb hsa hsb hnone (hfolded mb hfold) htext
      all_goals exact hstale rfl
    all_goals exact hstale rfl
  refine List.all_eq_true.2 fun run hrun => ?_
  rcases run with _ | ⟨base, rest⟩
  · rfl
  · refine List.all_eq_true.2 fun r hr => List.all_eq_true.2 fun pair hpair => ?_
    have hmem := List.of_mem_zip (show (pair.1, pair.2) ∈ base.statements.zip r.statements from hpair)
    rw [hstale base (mem_of_mem_greedyRuns hrun (List.mem_cons_self ..)) r
      (mem_of_mem_greedyRuns hrun (List.mem_cons_of_mem _ hr)) _ hmem.1 _ hmem.2]
    rfl

/-- On a list whose texts are apart every pass is faithful. -/
theorem TextsApart.passesFaithful {rules : List NftRule} (h : TextsApart rules) (fuel : Nat) :
    passesFaithful fuel rules = true := by
  induction fuel generalizing rules with
  | zero => rfl
  | succ fuel ih => simp [Ferm.passesFaithful, h.passFaithful, ih h.pass]

end Ferm
