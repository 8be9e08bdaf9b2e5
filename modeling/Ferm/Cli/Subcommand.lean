import Ferm.Etckeeper

/-!
# The rollback subcommand

A configuration is put back to a recorded revision and applied again. What becomes of its files when that fails depends on the
exception: they are restored when it says that the kernel still has the rules of before, and left at the revision otherwise.
-/

namespace Ferm

/-- What the subcommand works on: the repository, what it has written to the standard error, and the rest of the world. -/
structure Session (ρ σ : Type) where
  repo : ρ
  stderr : List String := []
  rest : σ

variable {ρ σ : Type}

/-- Work on the repository. -/
def onRepo {α : Type} (x : Act ρ Raised α) : Act (Session ρ σ) Raised α :=
  Act.zoom Session.repo (fun repo s => { s with repo }) x

/-- Write to the standard error. -/
def say (text : String) : Act (Session ρ σ) Raised Unit := Act.modify fun s => { s with stderr := s.stderr ++ [text] }

/-- What is said when the configuration stays at the revision. -/
def leftMessage (config : String) : String :=
  "ferm: " ++ config ++ " is left at the reverted revision, uncommitted: the re-apply failed mid-flight and the kernel may match " ++
    "neither revision; inspect the rules, then commit or `git checkout` the config manually\n"

/-- `_restore_worktree`: a restore that fails is only told of. -/
def restoreWorktree (git : Vcs ρ) (config subpath : String) : Act (Session ρ σ) Raised Unit :=
  tryCatch
    (do
      onRepo (etckeeperRollback git CURRENT_REVISION subpath)
      say ("Rollback of " ++ config ++ " aborted; the config file was restored to match the running rules.\n"))
    fun e =>
      match e with
      | .ferm message =>
        say ("ferm: could not restore " ++ config ++ " after the aborted rollback: " ++ message ++ "\nferm: " ++ config ++
          " is left at the reverted revision, uncommitted\n")
      | e => throw e

/-- What the subcommand does with an exception of the apply. -/
def afterApply (git : Vcs ρ) (config subpath : String) : Raised → Act (Session ρ σ) Raised Int
  | .rolledBack => do
    restoreWorktree git config subpath
    throw .rolledBack
  | .kernelUntouched message => do
    restoreWorktree git config subpath
    throw (.kernelUntouched message)
  | .ferm message => do
    say (leftMessage config)
    throw (.ferm message)
  | .exit code => do
    if code ≠ 0 then say (leftMessage config)
    throw (.exit code)
  | .other name => throw (.other name)

/-- `_rollback_to`. The delta is shown and confirmation asked for by `ask`, which gives false when it is declined; the
configuration is applied by `apply`. -/
def rollbackTo (git : Vcs ρ) (ask : Act (Session ρ σ) Raised Bool) (apply : Act (Session ρ σ) Raised Int)
    (sha config subpath : String) : Act (Session ρ σ) Raised Int := do
  if ← onRepo (workingTreeDirty git subpath) then
    throw (.ferm (config ++
      " has uncommitted changes; commit or stash them before rolling back (checkout would overwrite them)"))
  if ← ask then do
    onRepo (etckeeperRollback git sha subpath)
    tryCatch apply (afterApply git config subpath)
  else do
    say "Rollback cancelled.\n"
    return ExitCode.OK

/-! ## The rollbacks of a run -/

/-- The exceptions that say that the kernel has the rules of before. -/
def Raised.provesUntouched : Raised → Bool
  | .rolledBack => true
  | .kernelUntouched _ => true
  | .ferm _ => false
  | .exit _ => false
  | .other _ => false

section

variable {git : Vcs ρ} {ask : Act (Session ρ σ) Raised Bool} {apply : Act (Session ρ σ) Raised Int}
  {sha config subpath : String}

/-- The guards let the run through to the rollback in this session. -/
def Proceeds (git : Vcs ρ) (ask : Act (Session ρ σ) Raised Bool) (subpath : String) (s s₁ : Session ρ σ) : Prop :=
  ∃ s₀, onRepo (workingTreeDirty git subpath) s = (.ok false, s₀) ∧ ask s₀ = (.ok true, s₁)

/-- A rollback that a run calls, with the repository it works on: the one to the revision, and the one back after an exception
that says that the kernel has the rules of before. -/
inductive RollbackCall (git : Vcs ρ) (ask : Act (Session ρ σ) Raised Bool) (apply : Act (Session ρ σ) Raised Int)
    (sha subpath : String) (s : Session ρ σ) : String → ρ → Prop
  | revert {s₁ : Session ρ σ} (h : Proceeds git ask subpath s s₁) : RollbackCall git ask apply sha subpath s sha s₁.repo
  | restore {s₁ s₂ : Session ρ σ} {repo : ρ} {e : Raised} (h : Proceeds git ask subpath s s₁)
    (hrevert : etckeeperRollback git sha subpath s₁.repo = (.ok (), repo))
    (happly : apply { s₁ with repo } = (.error e, s₂)) (he : e.provesUntouched = true) :
    RollbackCall git ask apply sha subpath s CURRENT_REVISION s₂.repo

/-- A run that gets to the rollback. -/
theorem rollbackTo_of_proceeds {s s₁ : Session ρ σ} (h : Proceeds git ask subpath s s₁) :
    rollbackTo git ask apply sha config subpath s = (do
      onRepo (etckeeperRollback git sha subpath)
      tryCatch apply (afterApply git config subpath) : Act (Session ρ σ) Raised Int) s₁ := by
  obtain ⟨s₀, hclean, hasked⟩ := h
  unfold rollbackTo
  rw [Act.bind_of_ok hclean]
  simp only [Bool.false_eq_true, if_false]
  exact Act.bind_of_ok hasked

theorem onRepo_apply {α : Type} (x : Act ρ Raised α) (s : Session ρ σ) :
    onRepo x s = ((x s.repo).1, { s with repo := (x s.repo).2 }) := rfl

/-- When the rollback to the revision fails, the run ends with what it leaves. -/
theorem repo_of_revert_error {s s₁ : Session ρ σ} (h : Proceeds git ask subpath s s₁) {e : Raised}
    (he : (etckeeperRollback git sha subpath s₁.repo).1 = .error e) :
    (rollbackTo git ask apply sha config subpath s).2.repo = (etckeeperRollback git sha subpath s₁.repo).2 := by
  have hrevert : onRepo (etckeeperRollback git sha subpath) s₁ =
      (.error e, { s₁ with repo := (etckeeperRollback git sha subpath s₁.repo).2 }) := by
    rw [onRepo_apply, he]
  rw [rollbackTo_of_proceeds h, Act.bind_of_error hrevert]

/-- A run whose apply raises an exception. -/
theorem rollbackTo_of_apply_error {s s₁ s₂ : Session ρ σ} {repo : ρ} {e : Raised} (h : Proceeds git ask subpath s s₁)
    (hrevert : etckeeperRollback git sha subpath s₁.repo = (.ok (), repo))
    (happly : apply { s₁ with repo } = (.error e, s₂)) :
    rollbackTo git ask apply sha config subpath s = afterApply git config subpath e s₂ := by
  have honRepo : onRepo (etckeeperRollback git sha subpath) s₁ = (.ok (), { s₁ with repo }) := by
    rw [onRepo_apply, hrevert]
  rw [rollbackTo_of_proceeds h, Act.bind_of_ok honRepo]
  exact Act.tryCatch_of_error happly

theorem validate_current : validateRevision CURRENT_REVISION = .ok () := by decide

/-- The restore leaves the repository as its rollback does. -/
theorem repo_restoreWorktree (git : Vcs ρ) (config subpath : String) (s : Session ρ σ) :
    ∃ s', restoreWorktree git config subpath s = (.ok (), s') ∧
      s'.repo = (etckeeperRollback git CURRENT_REVISION subpath s.repo).2 := by
  have hends := etckeeperRollback_ends validate_current git subpath s.repo
  rcases hout : etckeeperRollback git CURRENT_REVISION subpath s.repo with ⟨r, repo⟩
  rw [hout] at hends
  have hrun : onRepo (etckeeperRollback git CURRENT_REVISION subpath) s = (r, { s with repo }) := by
    rw [onRepo_apply, hout]
  unfold restoreWorktree
  rcases r with e | u
  · obtain ⟨message, rfl⟩ : ∃ message, e = .ferm message := by
      simp only at hends
      cases hends <;> exact ⟨_, rfl⟩
    rw [Act.tryCatch_of_error (Act.bind_of_error hrun)]
    exact ⟨_, rfl, rfl⟩
  · have hbody : (do
        onRepo (etckeeperRollback git CURRENT_REVISION subpath)
        say ("Rollback of " ++ config ++ " aborted; the config file was restored to match the running rules.\n") :
          Act (Session ρ σ) Raised Unit) s = (.ok (), _) := (Act.bind_of_ok hrun).trans rfl
    rw [Act.tryCatch_of_ok hbody]
    exact ⟨_, rfl, rfl⟩

/-- After an exception that says that the kernel has the rules of before, the run ends with what the restore leaves. -/
theorem repo_afterApply_restore (git : Vcs ρ) (config subpath : String) {e : Raised} (he : e.provesUntouched = true)
    (s : Session ρ σ) :
    (afterApply git config subpath e s).1 = .error e ∧
      (afterApply git config subpath e s).2.repo = (etckeeperRollback git CURRENT_REVISION subpath s.repo).2 := by
  obtain ⟨s', hrun, hrepo⟩ := repo_restoreWorktree git config subpath s
  cases e with
  | rolledBack =>
    rw [show afterApply git config subpath .rolledBack s = (.error .rolledBack, s') from Act.bind_of_ok hrun]
    exact ⟨rfl, hrepo⟩
  | kernelUntouched message =>
    rw [show afterApply git config subpath (.kernelUntouched message) s = (.error (.kernelUntouched message), s') from
      Act.bind_of_ok hrun]
    exact ⟨rfl, hrepo⟩
  | ferm message => cases he
  | exit code => cases he
  | other name => cases he

/-- After any other exception the repository stays as the apply leaves it. -/
theorem repo_afterApply_leave (git : Vcs ρ) (config subpath : String) {e : Raised} (he : e.provesUntouched = false)
    (s : Session ρ σ) :
    (afterApply git config subpath e s).1 = .error e ∧ (afterApply git config subpath e s).2.repo = s.repo := by
  cases e with
  | rolledBack => cases he
  | kernelUntouched message => cases he
  | ferm message => exact ⟨rfl, rfl⟩
  | exit code =>
    by_cases hcode : code = 0
    · subst hcode
      exact ⟨rfl, rfl⟩
    · simp only [afterApply, ne_eq, hcode, not_false_eq_true, if_true]
      exact ⟨rfl, rfl⟩
  | other name => exact ⟨rfl, rfl⟩

/-! ## Atomic rollbacks -/

/-- A rollback of the run that fails leaves index and worktree under the path as they were before it, when the run has ended. -/
def RollbacksAtomic (git : Vcs ρ) (ask : Act (Session ρ σ) Raised Bool) (apply : Act (Session ρ σ) Raised Int)
    (sha config subpath : String) (s : Session ρ σ) : Prop :=
  ∀ revision repo, RollbackCall git ask apply sha subpath s revision repo →
    ∀ e, (etckeeperRollback git revision subpath repo).1 = .error e →
      SameUnder git subpath repo (rollbackTo git ask apply sha config subpath s).2.repo

/-- The run ends with what a failing rollback leaves. -/
theorem repo_of_rollback_error {s : Session ρ σ} {revision : String} {repo : ρ}
    (hcall : RollbackCall git ask apply sha subpath s revision repo) {e : Raised}
    (he : (etckeeperRollback git revision subpath repo).1 = .error e) :
    (rollbackTo git ask apply sha config subpath s).2.repo = (etckeeperRollback git revision subpath repo).2 := by
  cases hcall with
  | revert h => exact repo_of_revert_error h he
  | restore h hrevert happly hproves =>
    rw [rollbackTo_of_apply_error h hrevert happly]
    exact (repo_afterApply_restore git config subpath hproves _).2

/-- The rollbacks of a run are atomic exactly when each of them that fails does so at its first step with nothing done, or has
nothing to change. -/
theorem rollbackTo_atomic_iff {git : Vcs ρ} {subpath : String} (hgit : ∀ revision, git.Documented revision subpath)
    (ask : Act (Session ρ σ) Raised Bool) (apply : Act (Session ρ σ) Raised Int) {sha : String} (hvalid : validateRevision sha = .ok ())
    (config : String) (s : Session ρ σ) :
    RollbacksAtomic git ask apply sha config subpath s ↔
      ∀ revision repo, RollbackCall git ask apply sha subpath s revision repo → FailsCleanly git revision subpath repo := by
  refine forall₂_congr fun revision repo => forall_congr' fun hcall => ?_
  have hrevision : validateRevision revision = .ok () := by
    cases hcall with
    | revert => exact hvalid
    | restore => exact validate_current
  rw [← etckeeperRollback_atomic_iff (hgit revision) hrevision repo]
  exact forall₂_congr fun e he => by rw [repo_of_rollback_error hcall he]

end

/-- A repository with one configuration file, at two revisions. -/
def twoRevisions : Repo where
  revisions := (Dict.empty.set "HEAD" (Dict.empty.set "ferm/ferm.conf" "new")).set "abc123" (Dict.empty.set "ferm/ferm.conf" "old")
  index := Dict.empty.set "ferm/ferm.conf" "new"
  worktree := Dict.empty.set "ferm/ferm.conf" "new"

theorem proceeds_twoRevisions {σ : Type} (refusal : GitStep → Option String) (rest : σ) :
    Proceeds (plainGit refusal) (pure true) "ferm" ⟨twoRevisions, [], rest⟩ ⟨twoRevisions, [], rest⟩ := by
  have hstatus : twoRevisions.status "ferm" = [] := by decide
  have hdirty : workingTreeDirty (plainGit refusal) "ferm" twoRevisions = (.ok false, twoRevisions) := by
    have hrun : (plainGit refusal).run ["status", "--porcelain", "--", "ferm"] twoRevisions = ((.returned 0 "", ""), twoRevisions) := by
      change ((_, String.join ((twoRevisions.status "ferm").map fun path => " M " ++ path ++ "\n")), _) = _
      rw [hstatus]
      rfl
    rw [workingTreeDirty, Act.bind_of_ok (vcs_returned hrun)]
    rfl
  refine ⟨⟨twoRevisions, [], rest⟩, ?_, rfl⟩
  rw [onRepo_apply, hdirty]

/-- A git that finds the index locked. -/
private def lockedGit : Vcs Repo :=
  plainGit fun step => if step = .unstage then some "fatal: Unable to create 'index.lock': File exists." else none

/-- The first step is refused and has not done anything: the rollback fails, and the run ends with index and worktree as they were. -/
theorem rollbackTo_atomic_locked :
    ∃ (git : Vcs Repo) (s : Session Repo Unit), (∃ e, (etckeeperRollback git "abc123" "ferm" s.repo).1 = .error e) ∧
      RollbackCall git (pure true) (pure ExitCode.OK) "abc123" "ferm" s "abc123" s.repo ∧
        RollbacksAtomic git (pure true) (pure ExitCode.OK) "abc123" "/etc/ferm/ferm.conf" "ferm" s := by
  have hgit : ∀ revision, lockedGit.Documented revision "ferm" := fun revision => documented_plainGit _ revision "ferm"
  refine ⟨lockedGit, ⟨twoRevisions, [], ()⟩, ⟨_, rfl⟩, .revert (proceeds_twoRevisions _ ()),
    (rollbackTo_atomic_iff hgit _ _ (by decide) _ _).2 fun revision repo hcall => ?_⟩
  have hfails : lockedGit.succeeds revision "ferm" .unstage repo = false := rfl
  refine ⟨fun _ path _ => rfl, fun hok => ?_, fun hok => ?_⟩ <;>
  · rw [hfails] at hok
    cases hok

/-- The revision does not exist: the checkout fails behind the first step, and nothing is staged any more. -/
theorem rollbackTo_unstages :
    ∃ (git : Vcs Repo) (sha subpath : String) (s : Session Repo Unit), (∀ revision, git.Documented revision subpath) ∧
      validateRevision sha = .ok () ∧ ¬ RollbacksAtomic git (pure true) (pure ExitCode.OK) sha "/etc/ferm/ferm.conf" subpath s := by
  refine ⟨plainGit fun _ => none, "dead", "ferm", ⟨twoRevisions, [], ()⟩, fun revision => documented_plainGit _ revision "ferm",
    by decide, fun h => ?_⟩
  have hproceeds := proceeds_twoRevisions (fun _ => none) ()
  have hclean : FailsCleanly (plainGit fun _ => none) "dead" "ferm" twoRevisions :=
    (etckeeperRollback_atomic_iff (documented_plainGit _ "dead" "ferm") (by decide) twoRevisions).1 fun e he => by
      have hrepo := h _ _ (.revert hproceeds) e he
      rwa [repo_of_revert_error hproceeds he] at hrepo
  have hindex := (hclean.checkout rfl rfl "ferm/ferm.conf" (by decide)).1
  revert hindex
  decide

end Ferm
