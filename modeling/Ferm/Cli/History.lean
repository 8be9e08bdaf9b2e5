import Ferm.Lib.Argparse
import Ferm.Lib.Lines

/-!
# The command line in the history

A commit of the history names the command line it came from, with the values of `--def` left out. What the operand of `--def` is, the
code that leaves it out finds out by itself: here it is compared with the parser of the command line.
-/

namespace Ferm.History

open Argparse

/-! ## The command lines -/

/-- `PlanFormat`. -/
def PLAN_FORMATS : List String := ["structured", "diff"]

/-- `_build_parser`. -/
def buildParser : Parser where
  actions :=
    [{ strings := ["-n", "--noexec"], dest := "noexec" }, { strings := ["-F", "--flush"], dest := "flush" },
      { strings := ["--noflush"], dest := "noflush" }, { strings := ["-l", "--lines"], dest := "lines" },
      { strings := ["-i", "--interactive"], dest := "interactive" }, { strings := ["-t", "--timeout"], dest := "timeout", nargs := .one },
      { strings := ["-h", "--help"], dest := "help" }, { strings := ["-V", "--version"], dest := "version" },
      { strings := ["--test"], dest := "test" }, { strings := ["--remote"], dest := "test" },
      { strings := ["--test-mock-previous"], dest := "test_mock_previous", nargs := .one },
      { strings := ["--fast"], dest := "fast" }, { strings := ["--slow"], dest := "slow" }, { strings := ["--shell"], dest := "shell" },
      { strings := ["--domain"], dest := "domain", nargs := .one }, { strings := ["--def"], dest := "defs", nargs := .one },
      { strings := ["--nolegacy"], dest := "nolegacy" }, { strings := ["--nft"], dest := "nft" },
      { strings := ["--full-reload"], dest := "full_reload" }, { strings := ["--no-etckeeper"], dest := "no_etckeeper" },
      { strings := ["--plan"], dest := "plan" },
      { strings := ["--plan-format"], dest := "plan_format", nargs := .one, accepts := PLAN_FORMATS.contains },
      { strings := ["--lint"], dest := "lint" }, { strings := ["--lint-strict"], dest := "lint_strict" },
      { strings := ["--lint-fail-level"], dest := "lint_fail_level", nargs := .one, accepts := ["error", "warning", "info"].contains },
      { strings := ["--list-modules"], dest := "list_modules" }, { strings := ["--describe"], dest := "describe", nargs := .one },
      { strings := ["--graph"], dest := "graph" },
      { strings := ["--graph-format"], dest := "graph_format", nargs := .one, accepts := ["dot", "d2"].contains }]
  anyPositionals := true

/-- `_hex_sha`: an empty text, which stands for no operand, or a revision. -/
def hexSha (text : String) : Bool :=
  text = "" || (4 ≤ text.toList.length && text.toList.length ≤ 64 && text.toList.all isHexDigit)

-- `int`: which operands are numbers is all that the parser takes from it, and nothing below depends on that
variable (int : String → Option Int)

/-- `_positive_int`. -/
def positiveInt (text : String) : Bool := (int text).any fun value => 1 ≤ value

/-- `_build_rollback_parser`. -/
def buildRollbackParser : Parser where
  actions :=
    [{ strings := ["-h", "--help"], dest := "help", exits := true }, { strings := ["--list"], dest := "list" },
      { strings := ["--diff"], dest := "diff", nargs := .optional, accepts := hexSha },
      { strings := ["--to"], dest := "to", nargs := .one },
      { strings := ["-n", "--limit"], dest := "limit", nargs := .one, accepts := positiveInt int },
      { strings := ["--nft"], dest := "nft" }, { strings := ["--slow"], dest := "slow" },
      { strings := ["--full-reload"], dest := "full_reload" }, { strings := ["--nolegacy"], dest := "nolegacy" },
      { strings := ["-i", "--interactive"], dest := "interactive" },
      { strings := ["-t", "--timeout"], dest := "timeout", nargs := .one, accepts := fun text => (int text).isSome },
      { strings := ["--domain"], dest := "domain", nargs := .one }, { strings := ["--def"], dest := "defs", nargs := .one },
      { strings := ["--no-etckeeper"], dest := "no_etckeeper" }]
  anyPositionals := false
  exclusive := [["list", "diff", "to"]]

variable (isDecimal : Char → Bool)

/-- The roles of the arguments, if the command line is accepted: the word `rollback` in front selects the parser. -/
def roles : List String → Option (List Role)
  | "rollback" :: argv => (parseArgs isDecimal (buildRollbackParser int) argv).map (.positional :: ·)
  | argv => parseArgs isDecimal buildParser argv

/-! ## The record of a command line -/

/-- `_redact_def_operand`. -/
def redactDefOperand (operand : String) : String :=
  match partitionAt '=' operand.toList with
  | some (name, _) => String.ofList name ++ "=<redacted>"
  | none => operand

/-- The loop of `_redacted_argv`. -/
def redactFrom (expectOperand : Bool) : List String → List String
  | [] => []
  | arg :: argv =>
    if expectOperand then redactDefOperand arg :: redactFrom false argv
    else if arg = "--def" then arg :: redactFrom true argv
    else if startsWith arg "--def=" then
      ("--def=" ++ redactDefOperand (String.ofList (arg.toList.drop 6))) :: redactFrom false argv
    else arg :: redactFrom false argv

/-- `_redacted_argv`. -/
def redactedArgv (argv : List String) : List String := redactFrom false argv

/-- `_trailer_block`. -/
def trailerBlock (version program : String) (argv : List String) : String :=
  "Ferm-Version: " ++ version ++ "\nFerm-Command: " ++ " ".intercalate (program :: redactedArgv argv)

/-! ## Values of definitions are not recorded -/

/-- Two operands that differ behind the first `=` at most. -/
def SameName (v w : List Char) : Prop :=
  v = w ∨ ∃ name value value', '=' ∉ name ∧ v = name ++ '=' :: value ∧ w = name ++ '=' :: value'

/-- Two arguments that differ behind the first `=` of the operand of `--def` at most, where the first has a role. -/
inductive SameButValue : Role → String → String → Prop where
  | same (role : Role) (arg : String) : SameButValue role arg arg
  | operand {arg arg' : String} : SameName arg.toList arg'.toList → SameButValue (.operand "defs") arg arg'
  | attached {arg arg' : String} {head text text' : List Char} : arg.toList = head ++ text → arg'.toList = head ++ text' →
      SameName text text' → SameButValue (.attached "defs" text) arg arg'

/-- Two command lines that differ behind the first `=` of the operands of `--def` at most, where the arguments of the first have
roles. -/
inductive SameButValues : List Role → List String → List String → Prop where
  | nil : SameButValues [] [] []
  | cons {role : Role} {arg arg' : String} {roles : List Role} {argv argv' : List String} : SameButValue role arg arg' →
      SameButValues roles argv argv' → SameButValues (role :: roles) (arg :: argv) (arg' :: argv')

theorem binds_buildParser : buildParser.Binds "--def" "defs" where
  long := ⟨'d', ['e', 'f'], rfl⟩
  plain := by decide
  found := ⟨_, rfl, rfl⟩
  only := by decide
  noEquals := by decide

theorem binds_buildRollbackParser : (buildRollbackParser int).Binds "--def" "defs" where
  long := ⟨'d', ['e', 'f'], rfl⟩
  plain := by decide
  found := ⟨_, rfl, rfl⟩
  only := by simp [buildRollbackParser]
  noEquals := by simp [buildRollbackParser]

/-- The name is all that is left of an operand with a value. -/
theorem redactDefOperand_of_sameName {v w : String} (h : SameName v.toList w.toList) : redactDefOperand v = redactDefOperand w := by
  rcases h with heq | ⟨name, value, value', hname, hv, hw⟩
  · rw [String.toList_inj.1 heq]
  · rw [redactDefOperand, redactDefOperand, hv, hw, partitionAt_append hname, partitionAt_append hname]

/-- An argument that begins with `--def=` is spelled like the option with its operand. -/
theorem startsWith_def_iff (arg : String) : startsWith arg "--def=" = true ↔ ∃ text, arg.toList = "--def".toList ++ '=' :: text := by
  rw [startsWith, List.isPrefixOf_iff_prefix]
  constructor
  · rintro ⟨text, htext⟩
    exact ⟨text, htext.symm⟩
  · rintro ⟨text, htext⟩
    exact ⟨text, htext.symm⟩

variable {int isDecimal} {p : Parser}

/-- What is written behind `--` is the same in both command lines. -/
theorem sameButValues_separated {s : State} {argv argv' : List String} {roles : List Role} (hs : s.separated = true)
    (h : parseFrom isDecimal p s argv = some roles) (hsame : SameButValues roles argv argv') : argv = argv' := by
  induction hsame generalizing s with
  | nil => rfl
  | @cons role arg arg' roles argv argv' harg _ ih =>
    obtain ⟨⟨s', role'⟩, hstep, hrest⟩ := Option.bind_eq_some_iff.1 h
    obtain ⟨roles', hroles, heq⟩ := Option.bind_eq_some_iff.1 hrest
    obtain ⟨rfl, rfl⟩ := List.cons_eq_cons.1 (Option.some.inj heq)
    obtain ⟨hrole, hseparated⟩ := step_separated hs hstep
    subst hrole
    cases harg with
    | same => rw [ih hseparated hroles]

/-- An argument that is neither of the spellings of `--def` is recorded as it is. -/
theorem redactFrom_other {arg : String} (hne : arg ≠ "--def") (hequals : ∀ text, arg.toList ≠ "--def".toList ++ '=' :: text)
    (argv : List String) : redactFrom false (arg :: argv) = arg :: redactFrom false argv := by
  have hstarts : ¬ startsWith arg "--def=" = true := fun hstarts => by
    obtain ⟨text, htext⟩ := (startsWith_def_iff arg).1 hstarts
    exact hequals text htext
  simp only [redactFrom, hne, hstarts, if_false, Bool.false_eq_true]

/-- Of the spelling with `=` the operand is redacted. -/
theorem redactFrom_attached {arg : String} {text : List Char} (harg : arg.toList = "--def".toList ++ '=' :: text) (argv : List String) :
    redactFrom false (arg :: argv) = ("--def=" ++ redactDefOperand (String.ofList text)) :: redactFrom false argv := by
  have hne : arg ≠ "--def" := by
    rintro rfl
    have hlength := congrArg List.length harg
    rw [List.length_append, List.length_cons] at hlength
    omega
  have hstarts : startsWith arg "--def=" = true := (startsWith_def_iff arg).2 ⟨text, harg⟩
  have hdrop : arg.toList.drop 6 = text := by rw [harg]; rfl
  simp only [redactFrom, hne, hstarts, hdrop, if_false, if_true, Bool.false_eq_true]

/-- The record of a command line, from a point on where it waits for the operand exactly when the parser does. -/
theorem redactFrom_of_sameButValues (hp : p.Binds "--def" "defs") {s : State} {expect : Bool} {argv argv' : List String}
    {roles : List Role} (hvalid : s.Valid p) (hsync : s.separated = false → (expect = true ↔ s.Expects "defs"))
    (h : parseFrom isDecimal p s argv = some roles) (hsame : SameButValues roles argv argv') :
    redactFrom expect argv = redactFrom expect argv' := by
  induction hsame generalizing s expect with
  | nil => rfl
  | @cons role arg arg' roles argv argv' harg hrest ih =>
    cases hseparated : s.separated with
    | true => rw [sameButValues_separated hseparated h (.cons harg hrest)]
    | false =>
      obtain ⟨⟨s', role'⟩, hstep, htail⟩ := Option.bind_eq_some_iff.1 h
      obtain ⟨roles', hroles, heq⟩ := Option.bind_eq_some_iff.1 htail
      obtain ⟨rfl, rfl⟩ := List.cons_eq_cons.1 (Option.some.inj heq)
      obtain ⟨hvalid', hcases⟩ := step_cases hp hseparated hvalid hstep
      have hexpect := hsync hseparated
      have hnext : ¬ s'.Expects "defs" → redactFrom false argv = redactFrom false argv' := fun hnot =>
        ih hvalid' (fun _ => ⟨fun hfalse => absurd hfalse Bool.false_ne_true, fun hexpects => absurd hexpects hnot⟩) hroles
      rcases hcases with ⟨hexpects, rfl, hafter⟩ | ⟨hnot, rfl, rfl, hafter⟩ | ⟨hnot, text, htext, rfl, hafter⟩ |
        ⟨hnot, hne, hequals, hattached, hoperand, hafter⟩
      · -- the operand
        obtain rfl : expect = true := hexpect.2 hexpects
        have hredact : redactDefOperand arg = redactDefOperand arg' := by
          cases harg with
          | same => rfl
          | operand hname => exact redactDefOperand_of_sameName hname
        simp only [redactFrom, if_true, hredact, hnext hafter]
      · -- the option, whose operand comes next
        obtain rfl : expect = false := Bool.eq_false_iff.2 fun htrue => hnot (hexpect.1 htrue)
        cases harg with
        | same =>
          have hnext' : redactFrom true argv = redactFrom true argv' :=
            ih hvalid' (fun _ => ⟨fun _ => hafter, fun _ => rfl⟩) hroles
          simp only [redactFrom, if_true, Bool.false_eq_true, if_false, hnext']
      · -- the option with its operand
        obtain rfl : expect = false := Bool.eq_false_iff.2 fun htrue => hnot (hexpect.1 htrue)
        rw [redactFrom_attached htext, hnext hafter]
        cases harg with
        | same => rw [redactFrom_attached htext]
        | @attached _ _ head _ text' hhead htext' hname =>
          have hsplit : head = "--def=".toList := by
            rw [hhead] at htext
            exact List.append_cancel_right (htext.trans (List.append_assoc "--def".toList ['='] text).symm)
          have harg' : arg'.toList = "--def".toList ++ '=' :: text' := by rw [htext', hsplit]; rfl
          have hredact : redactDefOperand (String.ofList text) = redactDefOperand (String.ofList text') :=
            redactDefOperand_of_sameName (by rwa [String.toList_ofList, String.toList_ofList])
          rw [redactFrom_attached harg', hredact]
      · -- anything else
        obtain rfl : expect = false := Bool.eq_false_iff.2 fun htrue => hnot (hexpect.1 htrue)
        have hsame : arg' = arg := by
          cases harg with
          | same => rfl
          | operand _ => exact absurd rfl hoperand
          | attached _ _ _ => exact absurd rfl (hattached _)
        rw [hsame, redactFrom_other hne hequals, redactFrom_other hne hequals, hnext hafter]

/-- **Values of `--def` are not recorded**: whenever the parser accepts a command line, every other one that differs from it behind the
first `=` of operands of `--def` at most has the same record, and its commits have the same trailers. -/
theorem redactedArgv_of_sameButValues {argv argv' : List String} {argumentRoles : List Role}
    (h : roles int isDecimal argv = some argumentRoles) (hsame : SameButValues argumentRoles argv argv') :
    redactedArgv argv = redactedArgv argv' ∧
      ∀ version program, trailerBlock version program argv = trailerBlock version program argv' := by
  have hredacted : redactedArgv argv = redactedArgv argv' := by
    unfold roles at h
    split at h
    · obtain ⟨rest, hrest, rfl⟩ := Option.map_eq_some_iff.1 h
      cases hsame with
      | cons harg hargv =>
        cases harg with
        | same =>
          have htail := redactFrom_of_sameButValues (binds_buildRollbackParser int) (fun _ haction => by cases haction)
            (fun _ => ⟨fun hfalse => absurd hfalse Bool.false_ne_true, fun ⟨_, haction, _⟩ => by cases haction⟩) hrest hargv
          have hother : ∀ argv, redactFrom false ("rollback" :: argv) = "rollback" :: redactFrom false argv :=
            fun argv => redactFrom_other (by decide) (fun text htext => by simp at htext) argv
          rw [redactedArgv, redactedArgv, hother, hother, htail]
    · exact redactFrom_of_sameButValues binds_buildParser (fun _ haction => by cases haction)
        (fun _ => ⟨fun hfalse => absurd hfalse Bool.false_ne_true, fun ⟨_, haction, _⟩ => by cases haction⟩) h hsame
  exact ⟨hredacted, fun version program => by rw [trailerBlock, trailerBlock, hredacted]⟩

theorem redactedArgv_of_sameButValues_passwords :
    redactedArgv ["--def", "$pw=hunter2", "--def=$token=a=b", "--", "--def", "f.conf"] =
      redactedArgv ["--def", "$pw=hunter3", "--def=$token=c", "--", "--def", "f.conf"] := by
  have hroles : roles (fun _ => none) Char.isDigit ["--def", "$pw=hunter2", "--def=$token=a=b", "--", "--def", "f.conf"] =
      some [.option, .operand "defs", .attached "defs" "$token=a=b".toList, .separator, .positional, .positional] := by decide
  have hpw : SameName "$pw=hunter2".toList "$pw=hunter3".toList :=
    .inr ⟨"$pw".toList, "hunter2".toList, "hunter3".toList, by decide, rfl, rfl⟩
  have htoken : SameName "$token=a=b".toList "$token=c".toList :=
    .inr ⟨"$token".toList, "a=b".toList, "c".toList, by decide, rfl, rfl⟩
  have htail : SameButValues [.separator, .positional, .positional] ["--", "--def", "f.conf"] ["--", "--def", "f.conf"] :=
    .cons (.same _ _) (.cons (.same _ _) (.cons (.same _ _) .nil))
  exact (redactedArgv_of_sameButValues hroles (.cons (.same _ _) (.cons (.operand hpw)
    (.cons (@SameButValue.attached _ _ "--def=".toList _ _ rfl rfl htoken) htail)))).1

end Ferm.History
