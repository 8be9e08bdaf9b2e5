import Ferm.Cli.RollbackAll
import Ferm.Cli.Subcommand

/-!
# The apply driver

A configuration is parsed and applied: up to the parser nothing has touched the kernel, and an error of the parser says so. Then
come the hooks, the families, and the rollback when a commit fails or is not confirmed. What becomes of the worktree when the
re-apply of an old revision fails follows from the phase it fails in and from what it raises there.
-/

namespace Ferm

/-! ## The driver -/

/-- The frames a clean run leaves on the scope stack. -/
def BALANCED_STACK_DEPTH : Nat := 2

/-- The options the driver looks at. -/
structure ApplyOptions where
  plan : Bool := false
  flush : Bool := false
  interactive : Bool := false
  shell : Bool := false
  noexec : Bool := false
  deriving DecidableEq, Repr

/-- What the parser leaves: the depth of the scope stack, the hooks, and the enabled families in the order of their names. -/
structure Parsed where
  stackDepth : Nat := BALANCED_STACK_DEPTH
  preHooks : List String := []
  postHooks : List String := []
  flushHooks : List String := []
  domains : List Family := []

/-- What the driver calls, on a world `σ`, with rendered rulesets `ρ`. -/
structure ApplySeams (σ ρ : Type) where
  applyDef : String → Act σ Raised Unit
  openScript : Act σ Raised Unit
  enter : Act σ Raised Parsed
  closeScripts : σ → σ
  runPlan : Parsed → Act σ Raised Int
  runHook : String → Act σ Raised Unit
  render : Family → Act σ Raised ρ
  commit : Family → ρ → Act σ Raised (Option Int)
  closeRendered : ρ → σ → σ
  rollbackAll : Act σ Raised Int
  emitShellConfirmation : Act σ Raised Unit
  confirmRules : Act σ Raised Bool
  commitHistory : Act σ Raised Unit
  closeDomains : σ → σ

namespace ApplySeams

variable {σ ρ : Type}

/-- An error of the parser is raised before the kernel is touched. -/
def markUntouched {α : Type} : Raised → Act σ Raised α
  | .ferm message => throw (.kernelUntouched message)
  | .kernelUntouched message => throw (.kernelUntouched message)
  | .exit code => throw (.exit code)
  | .rolledBack => throw .rolledBack
  | .other name => throw (.other name)

/-- What happens before any hook, render or commit. -/
def prepare (seams : ApplySeams σ ρ) (defs : List String) : Act σ Raised Parsed := do
  Act.each seams.applyDef defs
  seams.openScript
  let parsed ← Act.ensuring (tryCatch seams.enter markUntouched) seams.closeScripts
  if parsed.stackDepth ≠ BALANCED_STACK_DEPTH then
    throw (.ferm (internalError "parser left the scope stack unbalanced").message)
  return parsed

/-- One family is rendered and committed; the status of a commit that fails takes the place of one before it. -/
def commitFamily (seams : ApplySeams σ ρ) (domain : Family) (status : Option Int) : Act σ Raised (Option Int) := do
  let rendered ← seams.render domain
  let result ← Act.ensuring (seams.commit domain rendered) (seams.closeRendered rendered)
  return result.or status

/-- The families, one after the other. -/
def commitFamilies (seams : ApplySeams σ ρ) : List Family → Option Int → Act σ Raised (Option Int)
  | [], status => pure status
  | domain :: domains, status => do
    let status ← seams.commitFamily domain status
    seams.commitFamilies domains status

/-- `_rollback`. -/
def rollBack (seams : ApplySeams σ ρ) : Act σ Raised Unit := do
  let _ ← seams.rollbackAll

/-- The rules are confirmed, or rolled back. -/
def confirm (seams : ApplySeams σ ρ) (options : ApplyOptions) : Act σ Raised Unit := do
  Act.when options.shell seams.emitShellConfirmation
  Act.when (!options.noexec) do
    let confirmed ← seams.confirmRules
    Act.when (!confirmed) seams.rollBack

/-- What happens after the preparation. -/
def install (seams : ApplySeams σ ρ) (options : ApplyOptions) (parsed : Parsed) : Act σ Raised Int := do
  Act.each seams.runHook (if options.flush then [] else parsed.preHooks)
  let status ← seams.commitFamilies parsed.domains none
  Act.each seams.runHook (if options.flush then parsed.flushHooks else parsed.postHooks)
  Act.when status.isSome seams.rollBack
  Act.when options.interactive (seams.confirm options)
  seams.commitHistory
  return ExitCode.OK

/-- `_apply_config`. -/
def applyConfig (seams : ApplySeams σ ρ) (options : ApplyOptions) (defs : List String) : Act σ Raised Int := do
  let parsed ← seams.prepare defs
  if options.plan then seams.runPlan parsed
  else Act.ensuring (seams.install options parsed) seams.closeDomains

end ApplySeams

/-! ## Where an apply fails -/

/-- The phases of an apply. -/
inductive ApplyPhase where
  | definitions
  | opening
  | parsing
  | balance
  | installing
  deriving DecidableEq, Repr

/-- The options of a re-apply: it is never a plan, a flush, a dry run or a script. -/
def rollbackOptions (interactive : Bool) : ApplyOptions := { interactive }

namespace ApplySeams

variable {σ ρ : Type} {seams : ApplySeams σ ρ} {options : ApplyOptions} {defs : List String}

/-- An apply fails in a phase, with an exception, and leaves a state. -/
inductive FailsIn (seams : ApplySeams σ ρ) (options : ApplyOptions) (defs : List String) (s : σ) : ApplyPhase → Raised → σ → Prop
  | definitions {e : Raised} {s' : σ} (h : Act.each seams.applyDef defs s = (.error e, s')) :
    FailsIn seams options defs s .definitions e s'
  | opening {e : Raised} {s₁ s' : σ} (h : Act.each seams.applyDef defs s = (.ok (), s₁))
    (hfails : seams.openScript s₁ = (.error e, s')) : FailsIn seams options defs s .opening e s'
  | parsing {e : Raised} {s₁ s₂ s' : σ} (h : Act.each seams.applyDef defs s = (.ok (), s₁))
    (hopen : seams.openScript s₁ = (.ok (), s₂)) (hfails : seams.enter s₂ = (.error e, s')) :
    FailsIn seams options defs s .parsing e (seams.closeScripts s')
  | balance {parsed : Parsed} {s₁ s₂ s' : σ} (h : Act.each seams.applyDef defs s = (.ok (), s₁))
    (hopen : seams.openScript s₁ = (.ok (), s₂)) (henter : seams.enter s₂ = (.ok parsed, s'))
    (hfails : parsed.stackDepth ≠ BALANCED_STACK_DEPTH) :
    FailsIn seams options defs s .balance (.ferm (internalError "parser left the scope stack unbalanced").message)
      (seams.closeScripts s')
  | installing {parsed : Parsed} {e : Raised} {s₁ s' : σ} (h : seams.prepare defs s = (.ok parsed, s₁))
    (hfails : seams.install options parsed s₁ = (.error e, s')) : FailsIn seams options defs s .installing e (seams.closeDomains s')

/-- What an apply raises after it has failed in a phase: the error of the parser is marked. -/
def raisedFrom : ApplyPhase → Raised → Raised
  | .parsing, .ferm message => .kernelUntouched message
  | _, e => e

theorem markUntouched_eq {α : Type} (e : Raised) (s : σ) :
    (markUntouched e : Act σ Raised α) s = (.error (raisedFrom .parsing e), s) := by
  cases e <;> rfl

/-- The parser's exception is marked, and its scripts are closed. -/
theorem enter_error {e : Raised} {s s' : σ} (h : seams.enter s = (.error e, s')) :
    Act.ensuring (tryCatch seams.enter markUntouched) seams.closeScripts s =
      (.error (raisedFrom .parsing e), seams.closeScripts s') := by
  rw [Act.ensuring, Act.tryCatch_of_error h, markUntouched_eq]

theorem enter_ok {parsed : Parsed} {s s' : σ} (h : seams.enter s = (.ok parsed, s')) :
    Act.ensuring (tryCatch seams.enter markUntouched) seams.closeScripts s = (.ok parsed, seams.closeScripts s') := by
  rw [Act.ensuring, Act.tryCatch_of_ok h]

/-- An apply that is not a plan fails in one of its phases. -/
theorem applyConfig_of_failsIn (hplan : options.plan = false) {s s' : σ} {phase : ApplyPhase} {e : Raised}
    (h : FailsIn seams options defs s phase e s') : seams.applyConfig options defs s = (.error (raisedFrom phase e), s') := by
  have hprepare : ∀ {e : Raised} {s' : σ}, seams.prepare defs s = (.error e, s') →
      seams.applyConfig options defs s = (.error e, s') := Act.bind_of_error
  cases h with
  | definitions h => exact hprepare (Act.bind_of_error h)
  | opening h hfails => exact hprepare ((Act.bind_of_ok h).trans (Act.bind_of_error hfails))
  | parsing h hopen hfails =>
    exact hprepare ((Act.bind_of_ok h).trans ((Act.bind_of_ok hopen).trans (Act.bind_of_error (enter_error hfails))))
  | balance h hopen henter hfails =>
    refine hprepare ((Act.bind_of_ok h).trans ((Act.bind_of_ok hopen).trans ((Act.bind_of_ok (enter_ok henter)).trans ?_)))
    rw [if_pos hfails]
    rfl
  | installing h hfails =>
    rw [applyConfig, Act.bind_of_ok h, hplan]
    simp only [Bool.false_eq_true, if_false, Act.ensuring, hfails]
    rfl

/-- An apply that fails does so in one of its phases. -/
theorem exists_failsIn (hplan : options.plan = false) {s s' : σ} {e : Raised}
    (h : seams.applyConfig options defs s = (.error e, s')) :
    ∃ phase raised, FailsIn seams options defs s phase raised s' ∧ e = raisedFrom phase raised := by
  rcases Act.bind_eq_error.1 h with hprepare | ⟨parsed, s₁, hprepare, hrest⟩
  · rcases Act.bind_eq_error.1 hprepare with hdefs | ⟨_, s₁, hdefs, hprepare⟩
    · exact ⟨.definitions, e, .definitions hdefs, rfl⟩
    rcases Act.bind_eq_error.1 hprepare with hopen | ⟨_, s₂, hopen, hprepare⟩
    · exact ⟨.opening, e, .opening hdefs hopen, rfl⟩
    rcases Act.ok_or_error seams.enter s₂ with ⟨parsed, s₃, henter⟩ | ⟨raised, s₃, henter⟩
    · rw [Act.bind_of_ok (enter_ok henter)] at hprepare
      split at hprepare
      · rename_i hdepth
        have hraised := Act.bind_eq_error.1 hprepare
        obtain ⟨he, rfl⟩ : e = _ ∧ s' = seams.closeScripts s₃ := by
          rcases hraised with hthrow | ⟨_, _, hthrow, -⟩
          · obtain ⟨he, hs⟩ := Prod.mk.inj hthrow
            exact ⟨(Except.error.inj he).symm, hs.symm⟩
          · cases hthrow
        exact ⟨.balance, _, .balance hdefs hopen henter hdepth, he⟩
      · cases hprepare
    · rw [Act.bind_of_error (enter_error henter)] at hprepare
      obtain ⟨he, rfl⟩ := Prod.mk.inj hprepare
      exact ⟨.parsing, raised, .parsing hdefs hopen henter, (Except.error.inj he).symm⟩
  · rw [hplan] at hrest
    simp only [Bool.false_eq_true, if_false] at hrest
    rcases hinstall : seams.install options parsed s₁ with ⟨r, s₂⟩
    rw [Act.ensuring, hinstall] at hrest
    obtain ⟨rfl, rfl⟩ := Prod.mk.inj hrest
    exact ⟨.installing, e, .installing hprepare hinstall, rfl⟩

/-! ## What the installation raises -/

/-- What the seams behind the parser raise: none but the rollback says that the kernel has the rules of before, and the rollback
says so with its own exit. -/
structure Raises (seams : ApplySeams σ ρ) : Prop where
  runHook : ∀ {command s e s'}, seams.runHook command s = (.error e, s') → e.provesUntouched = false
  render : ∀ {domain s e s'}, seams.render domain s = (.error e, s') → e.provesUntouched = false
  commit : ∀ {domain rendered s e s'}, seams.commit domain rendered s = (.error e, s') → e.provesUntouched = false
  emitShellConfirmation : ∀ {s e s'}, seams.emitShellConfirmation s = (.error e, s') → e.provesUntouched = false
  confirmRules : ∀ {s e s'}, seams.confirmRules s = (.error e, s') → e.provesUntouched = false
  commitHistory : ∀ {s e s'}, seams.commitHistory s = (.error e, s') → e.provesUntouched = false
  rollbackAll : ∀ {s e s'}, seams.rollbackAll s = (.error e, s') → e.provesUntouched = true → e = .rolledBack

/-- An exception that does not say that the kernel has the rules of before, or the exit of a rollback of all families. -/
def RaisedBy (seams : ApplySeams σ ρ) (e : Raised) : Prop :=
  e.provesUntouched = true → e = .rolledBack ∧ ∃ s s', seams.rollbackAll s = (.error .rolledBack, s')

theorem raisedBy_of_eq_false {e : Raised} (h : e.provesUntouched = false) : seams.RaisedBy e := fun he => by
  rw [h] at he
  cases he

theorem each_runHook_error (hseams : seams.Raises) {commands : List String} {s s' : σ} {e : Raised}
    (h : Act.each seams.runHook commands s = (.error e, s')) : seams.RaisedBy e := by
  obtain ⟨command, -, s₁, hfails⟩ := Act.each_error h
  exact raisedBy_of_eq_false (hseams.runHook hfails)

theorem commitFamilies_error (hseams : seams.Raises) {domains : List Family} {status : Option Int} {s s' : σ} {e : Raised}
    (h : seams.commitFamilies domains status s = (.error e, s')) : seams.RaisedBy e := by
  induction domains generalizing status s with
  | nil => cases h
  | cons domain domains ih =>
    rcases Act.bind_eq_error.1 h with h | ⟨status', s₁, -, h⟩
    · rcases Act.bind_eq_error.1 h with h | ⟨rendered, s₁, -, h⟩
      · exact raisedBy_of_eq_false (hseams.render h)
      · rcases Act.bind_eq_error.1 h with h | ⟨_, _, -, h⟩
        · exact raisedBy_of_eq_false (hseams.commit (Prod.ext (Prod.mk.inj h).1 rfl))
        · cases h
    · exact ih h

theorem rollBack_error (hseams : seams.Raises) {s s' : σ} {e : Raised} (h : seams.rollBack s = (.error e, s')) :
    seams.RaisedBy e := by
  intro he
  rcases Act.bind_eq_error.1 h with h | ⟨_, _, -, h⟩
  · obtain rfl := hseams.rollbackAll h he
    exact ⟨rfl, s, s', h⟩
  · cases h

theorem confirm_error (hseams : seams.Raises) {s s' : σ} {e : Raised} (h : seams.confirm options s = (.error e, s')) :
    seams.RaisedBy e := by
  rcases Act.bind_eq_error.1 h with h | ⟨_, s₁, -, h⟩
  · exact raisedBy_of_eq_false (hseams.emitShellConfirmation (Act.when_eq_error.1 h).2)
  · rcases Act.bind_eq_error.1 (Act.when_eq_error.1 h).2 with h | ⟨confirmed, s₂, -, h⟩
    · exact raisedBy_of_eq_false (hseams.confirmRules h)
    · exact rollBack_error hseams (Act.when_eq_error.1 h).2

/-- Only the rollback of all families ends the installation with an exception that says that the kernel has the rules of before. -/
theorem install_error (hseams : seams.Raises) {parsed : Parsed} {s s' : σ} {e : Raised}
    (h : seams.install options parsed s = (.error e, s')) : seams.RaisedBy e := by
  rcases Act.bind_eq_error.1 h with h | ⟨_, s₁, -, h⟩
  · exact each_runHook_error hseams h
  rcases Act.bind_eq_error.1 h with h | ⟨status, s₂, -, h⟩
  · exact commitFamilies_error hseams h
  rcases Act.bind_eq_error.1 h with h | ⟨_, s₃, -, h⟩
  · exact each_runHook_error hseams h
  rcases Act.bind_eq_error.1 h with h | ⟨_, s₄, -, h⟩
  · exact rollBack_error hseams (Act.when_eq_error.1 h).2
  rcases Act.bind_eq_error.1 h with h | ⟨_, s₅, -, h⟩
  · exact confirm_error hseams (Act.when_eq_error.1 h).2
  rcases Act.bind_eq_error.1 h with h | ⟨_, s₆, -, h⟩
  · exact raisedBy_of_eq_false (hseams.commitHistory h)
  · cases h

end ApplySeams

/-! ## The worktree after a re-apply that fails -/

/-- A file that a revision has under the path is the one of its tree. -/
theorem get?_of_filesOf {repo : Repo} {sha subpath : String} {files : Tree} (h : repo.filesOf sha subpath = some files) {path : String}
    (hpath : isUnder subpath path = true) : files.get? path = (repo.revisions.get? sha).bind fun tree => tree.get? path := by
  obtain ⟨tree, htree, hsome⟩ := Option.bind_eq_some_iff.1 h
  simp only at hsome
  split at hsome
  · cases hsome
  · obtain rfl := Option.some.inj hsome
    rw [htree, Option.bind_some, Dict.get?_filterKeys, if_pos hpath]

section Reapply

variable {ρ σ δ : Type}

/-- The configuration's files are put back to the current revision: the rollback to it is run, and when git does what its manual
says and no process fails, nothing under the path differs from that revision but files that were ignored when it cleaned. -/
structure Restored (git : Vcs ρ) (subpath : String) (repo repo' : ρ) : Prop where
  rolledBack : repo' = (etckeeperRollback git CURRENT_REVISION subpath repo).2
  files : git.Documented CURRENT_REVISION subpath → (etckeeperRollback git CURRENT_REVISION subpath repo).1 = .ok () →
    ∀ path, isUnder subpath path = true → (git.look (git.before CURRENT_REVISION subpath .clean repo)).ignored path = false →
      (git.look repo').worktree.get? path = (git.look repo).head.get? path

/-- A rollback to the current revision restores the files of it. -/
theorem restored_rollback (git : Vcs ρ) (subpath : String) (repo : ρ) :
    Restored git subpath repo (etckeeperRollback git CURRENT_REVISION subpath repo).2 := by
  refine ⟨rfl, fun hgit hok path hpath hignored => ?_⟩
  have hends := etckeeperRollback_ends validate_current git subpath repo
  rw [hok] at hends
  generalize (etckeeperRollback git CURRENT_REVISION subpath repo).2 = repo' at hends
  cases hends with
  | done h h' h'' =>
    obtain ⟨files, hfiles, hwritten⟩ := hgit.checkedOut h h'
    obtain ⟨hindex, hworktree⟩ := hwritten path hpath
    have hhead : files.get? path = (git.look repo).head.get? path := by
      rw [get?_of_filesOf hfiles hpath, Repo.head]
      cases (git.look repo).revisions.get? CURRENT_REVISION <;> rfl
    rw [← hhead]
    cases hfile : files.get? path with
    | none =>
      rw [hfile] at hindex
      exact hgit.clean_worktree _ h'' path hpath (Dict.get?_eq_none_iff.1 hindex) hignored
    | some content =>
      -- a tracked file is not cleaned away
      rw [hfile] at hindex hworktree
      rcases hgit.clean_removes (git.before CURRENT_REVISION subpath .clean repo) path hpath with hsame | ⟨huntracked, -, -⟩
      · rw [hsame, hworktree]
        rfl
      · exact absurd (Dict.mem_of_get? hindex) huntracked

/-- `_rollback_to`, which applies the configuration with the driver. -/
def reapply (git : Vcs ρ) (ask : Act (Session ρ σ) Raised Bool) (seams : ApplySeams (Session ρ σ) δ)
    (interactive : Bool) (defs : List String) (sha config subpath : String) : Act (Session ρ σ) Raised Int :=
  rollbackTo git ask (seams.applyConfig (rollbackOptions interactive) defs) sha config subpath

/-- A re-apply that fails while the configuration is parsed, with an error of `ferm`, has the files put back to the current
revision. One that fails behind the parser has them put back when it ends with the exit after the rollback of all families, and
leaves them as they are otherwise. -/
theorem reapply_worktree {git : Vcs ρ} {ask : Act (Session ρ σ) Raised Bool} {seams : ApplySeams (Session ρ σ) δ}
    (hseams : seams.Raises) (interactive : Bool) (defs : List String) {sha : String} (config : String) {subpath : String}
    {s s₁ s₂ : Session ρ σ} {repo : ρ} {e : Raised} (h : Proceeds git ask subpath s s₁)
    (hrevert : etckeeperRollback git sha subpath s₁.repo = (.ok (), repo))
    (happly : seams.applyConfig (rollbackOptions interactive) defs { s₁ with repo } = (.error e, s₂)) :
    ∃ phase raised, seams.FailsIn (rollbackOptions interactive) defs { s₁ with repo } phase raised s₂ ∧
      ∃ s', reapply git ask seams interactive defs sha config subpath s = (.error (ApplySeams.raisedFrom phase raised), s') ∧
        (phase = .parsing → (∃ message, raised = .ferm message) → Restored git subpath s₂.repo s'.repo) ∧
        (phase = .installing → raised = .rolledBack →
          (∃ s₃ s₄, seams.rollbackAll s₃ = (.error .rolledBack, s₄)) ∧ Restored git subpath s₂.repo s'.repo) ∧
        (phase = .installing → raised ≠ .rolledBack → s'.repo = s₂.repo) := by
  obtain ⟨phase, raised, hfails, rfl⟩ := ApplySeams.exists_failsIn rfl happly
  have hrun : reapply git ask seams interactive defs sha config subpath s = _ := rollbackTo_of_apply_error h hrevert happly
  have hrestore : (ApplySeams.raisedFrom phase raised).provesUntouched = true → Restored git subpath s₂.repo
      (afterApply git config subpath (ApplySeams.raisedFrom phase raised) s₂).2.repo := fun hproves => by
    rw [(repo_afterApply_restore git config subpath hproves s₂).2]
    exact restored_rollback git subpath s₂.repo
  have herror : (afterApply git config subpath (ApplySeams.raisedFrom phase raised) s₂).1 =
      .error (ApplySeams.raisedFrom phase raised) := by
    cases hproves : (ApplySeams.raisedFrom phase raised).provesUntouched with
    | true => exact (repo_afterApply_restore git config subpath hproves s₂).1
    | false => exact (repo_afterApply_leave git config subpath hproves s₂).1
  refine ⟨phase, raised, hfails, _, hrun.trans (Prod.ext herror rfl), ?_, ?_, ?_⟩
  · rintro rfl ⟨message, rfl⟩
    exact hrestore rfl
  · rintro rfl rfl
    refine ⟨?_, hrestore rfl⟩
    cases hfails with
    | installing hprepare hinstall => exact (ApplySeams.install_error hseams hinstall rfl).2
  · rintro rfl hne
    refine (repo_afterApply_leave git config subpath ?_ s₂).2
    cases hfails with
    | installing hprepare hinstall =>
      by_contra hproves
      exact hne (ApplySeams.install_error hseams hinstall (Bool.of_not_eq_false hproves)).1

end Reapply

/-- A git that refuses nothing. -/
def obligingGit : Vcs Repo := plainGit fun _ => none

/-- One family is committed, and its rules are not confirmed. -/
def declined : ApplySeams (Session Repo (List Family)) Unit where
  applyDef _ := pure ()
  openScript := pure ()
  enter := pure { domains := [.ip] }
  closeScripts := id
  runPlan _ := pure ExitCode.OK
  runHook _ := pure ()
  render _ := pure ()
  commit domain _ := do
    Act.modify fun s => { s with rest := s.rest ++ [domain] }
    return none
  closeRendered _ := id
  rollbackAll := do
    Act.modify fun s => { s with rest := [] }
    throw .rolledBack
  emitShellConfirmation := pure ()
  confirmRules := pure false
  commitHistory := pure ()
  closeDomains := id

theorem raises_declined : declined.Raises where
  runHook := nofun
  render := nofun
  commit := nofun
  emitShellConfirmation := nofun
  confirmRules := nofun
  commitHistory := nofun
  rollbackAll h _ := (Except.error.inj (Prod.mk.inj h).1).symm

/-- The repository with the old revision in the worktree. -/
def revertedRepo : Repo := (etckeeperRollback obligingGit "abc123" "ferm" twoRevisions).2

theorem revert_twoRevisions : etckeeperRollback obligingGit "abc123" "ferm" twoRevisions = (.ok (), revertedRepo) := rfl

theorem declined_fails : declined.applyConfig (rollbackOptions true) [] ⟨revertedRepo, [], []⟩ =
    (.error .rolledBack, ⟨revertedRepo, [], []⟩) := rfl

theorem reapply_worktree_declined :
    ∃ phase raised, declined.FailsIn (rollbackOptions true) [] ⟨revertedRepo, [], []⟩ phase raised ⟨revertedRepo, [], []⟩ ∧
      ∃ s', reapply obligingGit (pure true) declined true [] "abc123" "/etc/ferm/ferm.conf" "ferm" ⟨twoRevisions, [], []⟩ =
          (.error (ApplySeams.raisedFrom phase raised), s') ∧
        (phase = .parsing → (∃ message, raised = .ferm message) → Restored obligingGit "ferm" revertedRepo s'.repo) ∧
        (phase = .installing → raised = .rolledBack →
          (∃ s₃ s₄, declined.rollbackAll s₃ = (.error .rolledBack, s₄)) ∧ Restored obligingGit "ferm" revertedRepo s'.repo) ∧
        (phase = .installing → raised ≠ .rolledBack → s'.repo = revertedRepo) :=
  reapply_worktree raises_declined true [] "/etc/ferm/ferm.conf" (proceeds_twoRevisions _ []) revert_twoRevisions declined_fails

/-- A re-apply that is declined after a commit has the new revision put back: the worktree is not left at the old one. -/
theorem declined_reapply_restores :
    (∃ s s', declined.FailsIn (rollbackOptions true) [] ⟨revertedRepo, [], []⟩ .installing .rolledBack s' ∧
        declined.commit .ip () s = (.ok none, { s with rest := [.ip] })) ∧
      revertedRepo.worktree.get? "ferm/ferm.conf" = some "old" ∧
      (reapply obligingGit (pure true) declined true [] "abc123" "/etc/ferm/ferm.conf" "ferm" ⟨twoRevisions, [], []⟩).2.repo.worktree.get?
        "ferm/ferm.conf" = some "new" := by
  refine ⟨⟨⟨revertedRepo, [], []⟩, ⟨revertedRepo, [], []⟩, ?_, rfl⟩, by decide, by decide⟩
  have hprepare : declined.prepare [] ⟨revertedRepo, [], []⟩ = (.ok { domains := [.ip] }, ⟨revertedRepo, [], []⟩) := rfl
  have hinstall : declined.install (rollbackOptions true) { domains := [.ip] } ⟨revertedRepo, [], []⟩ =
      (.error .rolledBack, ⟨revertedRepo, [], []⟩) := rfl
  exact .installing hprepare hinstall

end Ferm
