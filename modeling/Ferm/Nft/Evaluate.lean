import Ferm.Nft.Model

/-!
# What rules do with a packet

A chain's rules are tried one after the other. The statements of a rule see the packet from left to right: each lets it go on, ends
the rule, or decides it, and the packet gets the verdict of the first rule that decides. What the texts of matches and verdicts
mean is a parameter, so that whatever is shown here holds of any reading of them.
-/

namespace Ferm

/-- What a statement does with a packet: it goes on to the next statement, leaves the rule, or is decided. -/
inductive Step where
  | next
  | skip
  | done (verdict : String)
  deriving DecidableEq, Repr

/-- The verdict of a step that decides. -/
def Step.verdict? : Step → Option String
  | done verdict => some verdict
  | next => none
  | skip => none

/-- How packets meet the texts of a script: which matches with one operand or none they meet, and what a verdict does with them.
A verdict need not decide: `log` goes on, and a packet that a jump's chain returns leaves the rule. -/
structure Reading (P : Type) where
  holds : P → String → Bool
  verdict : P → String → Step

variable {P : Type}

/-- A folded match holds when one of its operands does. -/
def NftMatch.holds (R : Reading P) (p : P) (m : NftMatch) : Bool :=
  match m.elements with
  | some elements => elements.any fun e => R.holds p (m.setKey.getD "" ++ " " ++ e)
  | none => R.holds p m.expr

/-- What one statement does with a packet. A verdict map has no order of its own: it is looked up as it is written, and a packet
without a key in it leaves the rule. The classes that only act on the kernel's state let the packet go on. -/
def NftStatement.stepOn (R : Reading P) (p : P) : NftStatement → Step
  | nftMatch m => if m.holds R p then .next else .skip
  | nftVerdict expr => R.verdict p expr
  | nftVmap setKey pairs =>
    match (orderVmapPairs pairs).find? fun pair => R.holds p (setKey ++ " " ++ pair.1) with
    | some pair => R.verdict p pair.2
    | none => .skip
  | nftReset _ => .next
  | nftSetUpdate _ => .next
  | nftObjectRef _ => .next
  | nftQuota _ => .next

/-- Statements one after the other: the first that does not let the packet go on. -/
def runSteps : List Step → Step
  | [] => .next
  | .next :: steps => runSteps steps
  | .skip :: _ => .skip
  | .done verdict :: _ => .done verdict

/-- What each statement of a rule does with a packet. -/
def NftRule.steps (R : Reading P) (p : P) (r : NftRule) : List Step := r.statements.map (NftStatement.stepOn R p)

/-- The verdict a rule has for a packet, if it decides it. -/
def NftRule.offer (R : Reading P) (p : P) (r : NftRule) : Option String := (runSteps (r.steps R p)).verdict?

/-- First-match evaluation of a chain's rules. -/
def firstMatch (R : Reading P) (rules : List NftRule) (p : P) : Option String := rules.findSome? (NftRule.offer R p)

/-- A rule as it is translated: no verdict maps yet. -/
def NftRule.Linear (r : NftRule) : Prop := ∀ setKey pairs, .nftVmap setKey pairs ∉ r.statements

def NftStatement.isVmap : NftStatement → Bool
  | .nftVmap _ _ => true
  | _ => false

theorem NftRule.linear_iff (r : NftRule) : (∀ stmt ∈ r.statements, stmt.isVmap = false) ↔ r.Linear := by
  constructor
  · intro h setKey pairs hmem
    cases h _ hmem
  · intro h stmt hmem
    cases stmt with
    | nftVmap setKey pairs => exact absurd hmem (h setKey pairs)
    | _ => rfl

instance (r : NftRule) : Decidable r.Linear := decidable_of_iff _ r.linear_iff

/-! ## Matches -/

/-- A match holds when the text of one of its operands does. -/
theorem NftMatch.holds_eq_any (R : Reading P) (p : P) {m : NftMatch} {key : String} (h : m.setKey = some key) :
    m.holds R p = (m.elements.getD m.element.toList).any fun e => R.holds p (key ++ " " ++ e) := by
  rcases m.keyed_cases with ⟨hk, -⟩ | ⟨k, e, hk, he, hes, -, hexpr⟩ | ⟨k, es, hk, he, hes, -⟩
  · rw [hk] at h
    cases h
  · rw [hk] at h
    cases h
    simp [holds, hes, he, hexpr]
  · rw [hk] at h
    cases h
    simp [holds, hes, hk]

/-! ## Statements in a row -/

/-- A statement that ends the rule is reached or is not: the rule then does what it does otherwise. -/
theorem runSteps_set_skip (steps : List Step) (k : Nat) :
    runSteps (steps.set k .skip) = .skip ∨ runSteps (steps.set k .skip) = runSteps (steps.set k .next) := by
  induction steps generalizing k with
  | nil => exact .inr rfl
  | cons step steps ih =>
    rcases k with _ | k
    · exact .inl rfl
    · simp only [List.set_cons_succ]
      rcases step with _ | _ | verdict
      · exact ih k
      · exact .inl rfl
      · exact .inr rfl

/-! ## Rules in a row -/

@[simp] theorem firstMatch_nil (R : Reading P) (p : P) : firstMatch R [] p = none := rfl

theorem firstMatch_singleton (R : Reading P) (r : NftRule) (p : P) : firstMatch R [r] p = r.offer R p := by
  simp [firstMatch, List.findSome?_cons]
  cases r.offer R p <;> rfl

theorem firstMatch_append (R : Reading P) (as bs : List NftRule) (p : P) :
    firstMatch R (as ++ bs) p = (firstMatch R as p).or (firstMatch R bs p) := List.findSome?_append

/-- Rules may be replaced run by run. -/
theorem firstMatch_flatMap {R : Reading P} {p : P} {runs : List (List NftRule)} {f : List NftRule → List NftRule}
    (h : ∀ run ∈ runs, firstMatch R (f run) p = firstMatch R run p) :
    firstMatch R (runs.flatMap f) p = firstMatch R runs.flatten p := by
  induction runs with
  | nil => rfl
  | cons run runs ih =>
    obtain ⟨hrun, hruns⟩ := List.forall_mem_cons.1 h
    rw [List.flatMap_cons, List.flatten_cons, firstMatch_append, firstMatch_append, hrun, ih hruns]

/-- Rules that each offer the same verdict when they hold, and nothing or that verdict when they do not, offer it together when one
of them holds. -/
theorem firstMatch_eq_ite {R : Reading P} {p : P} {rules : List NftRule} {holds : NftRule → Bool} {v w : Option String}
    (hne : rules ≠ []) (hw : w = none ∨ w = v) (h : ∀ r ∈ rules, r.offer R p = if holds r then v else w) :
    firstMatch R rules p = if rules.any holds then v else w := by
  induction rules with
  | nil => exact absurd rfl hne
  | cons r rules ih =>
    obtain ⟨hr, hrules⟩ := List.forall_mem_cons.1 h
    have hcons : firstMatch R (r :: rules) p = (r.offer R p).or (firstMatch R rules p) := by
      rw [← List.singleton_append, firstMatch_append, firstMatch_singleton]
    rw [hcons, hr, List.any_cons]
    rcases rules with _ | ⟨r', rules⟩
    · simp
    · rw [ih (by simp) hrules]
      cases v <;> rcases hw with rfl | rfl <;> cases holds r <;> cases (r' :: rules).any holds <;> simp

end Ferm
