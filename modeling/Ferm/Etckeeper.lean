import Ferm.Cli.Seams
import Ferm.Lib.Dict
import Mathlib.Data.List.Infix

/-!
# The configuration's history

The git processes of a rollback, which put the configuration's directory back to a revision in three steps. Git is a parameter:
what a process does to the repository is the world's answer, and what its manual says of a process that ends well is a contract.
Nothing is said of what a process leaves that fails.
-/

namespace Ferm

/-! ## Repositories -/

/-- Files by their paths. -/
abbrev Tree : Type := Dict String String

/-- What there is to be seen of a repository: the trees of its revisions, the index, the files of the worktree, and the paths that
are ignored. -/
structure Repo where
  revisions : Dict String Tree
  index : Tree
  worktree : Tree
  ignored : String → Bool := fun _ => false

/-- The revision that is checked out. -/
def CURRENT_REVISION : String := "HEAD"

/-- The managed path, or a path below it. -/
def isUnder (subpath path : String) : Bool := path = subpath || startsWith path (subpath ++ "/")

namespace Repo

/-- The tree of the current revision. -/
def head (repo : Repo) : Tree := (repo.revisions.get? CURRENT_REVISION).getD Dict.empty

/-- The files a revision has under the managed path, if there are any. -/
def filesOf (repo : Repo) (sha subpath : String) : Option Tree :=
  (repo.revisions.get? sha).bind fun tree =>
    let files := tree.filterKeys (isUnder subpath)
    if files.entries.isEmpty then none else some files

end Repo

/-! ## Git processes -/

/-- `etckeeper vcs` on repositories `ρ`: what becomes of a process by its arguments, with its output, and the repository after it;
and what there is to be seen of a repository. -/
structure Vcs (ρ : Type) where
  run : List String → ρ → (Completed × String) × ρ
  look : ρ → Repo

/-- The steps of a rollback. -/
inductive GitStep where
  | unstage
  | checkout
  | clean
  deriving DecidableEq, Repr

/-- The name of a step in messages. -/
def GitStep.action : GitStep → String
  | unstage => "unstage"
  | checkout => "checkout"
  | clean => "clean"

/-- The arguments of a step's process. -/
def GitStep.args (sha subpath : String) : GitStep → List String
  | unstage => ["rm", "-r", "--cached", "--ignore-unmatch", "--", subpath]
  | checkout => ["checkout", sha, "--", subpath]
  | clean => ["clean", "-f", "-d", "--", subpath]

namespace Vcs

variable {ρ : Type} (git : Vcs ρ) (sha subpath : String)

/-- The process of a step ends well. -/
def succeeds (step : GitStep) (repo : ρ) : Bool := (git.run (step.args sha subpath) repo).1.1.ok

/-- The repository after the process of a step. -/
def after (step : GitStep) (repo : ρ) : ρ := (git.run (step.args sha subpath) repo).2

/-- The repository that a step of the rollback works on, when the steps before it have ended well. -/
def before : GitStep → ρ → ρ
  | .unstage, repo => repo
  | .checkout, repo => git.after sha subpath .unstage repo
  | .clean, repo => git.after sha subpath .checkout (git.after sha subpath .unstage repo)

/-- What git's manual says of the steps. Unstaging leaves the worktree alone, and when it ends well nothing under the path is staged
any more. A checkout that ends well has found files of the revision under the path; these are staged and written, and no other
files removed. Cleaning leaves the index alone, and of the files it removes none but those that are neither tracked nor ignored; when
it ends well all of these under the path are gone. -/
structure Documented : Prop where
  unstage_worktree : ∀ repo path, isUnder subpath path = true →
    (git.look (git.after sha subpath .unstage repo)).worktree.get? path = (git.look repo).worktree.get? path
  unstage_revisions : ∀ repo, (git.look (git.after sha subpath .unstage repo)).revisions = (git.look repo).revisions
  unstage_index : ∀ repo, git.succeeds sha subpath .unstage repo = true → ∀ path, isUnder subpath path = true →
    (git.look (git.after sha subpath .unstage repo)).index.get? path = none
  checkout : ∀ repo, git.succeeds sha subpath .checkout repo = true → ∃ files, (git.look repo).filesOf sha subpath = some files ∧
    ∀ path, isUnder subpath path = true →
      (git.look (git.after sha subpath .checkout repo)).index.get? path = (files.get? path).or ((git.look repo).index.get? path) ∧
      (git.look (git.after sha subpath .checkout repo)).worktree.get? path = (files.get? path).or ((git.look repo).worktree.get? path)
  clean_index : ∀ repo path, isUnder subpath path = true →
    (git.look (git.after sha subpath .clean repo)).index.get? path = (git.look repo).index.get? path
  clean_removes : ∀ repo path, isUnder subpath path = true →
    (git.look (git.after sha subpath .clean repo)).worktree.get? path = (git.look repo).worktree.get? path ∨
      path ∉ (git.look repo).index ∧ (git.look repo).ignored path = false ∧
        (git.look (git.after sha subpath .clean repo)).worktree.get? path = none
  clean_worktree : ∀ repo, git.succeeds sha subpath .clean repo = true → ∀ path, isUnder subpath path = true →
    path ∉ (git.look repo).index → (git.look repo).ignored path = false →
      (git.look (git.after sha subpath .clean repo)).worktree.get? path = none

end Vcs

section Processes

variable {ρ : Type} (git : Vcs ρ)

/-- `_vcs`: the return code of a process, its error output and its output. One that cannot be run is an error. -/
def vcs (action : String) (args : List String) : Act ρ Raised (Int × String × String) := do
  match ← Act.ofState (git.run args) with
  | (.failed reason, _) => throw (.ferm ("etckeeper vcs " ++ action ++ " failed: " ++ reason))
  | (.returned code stderr, stdout) => return (code, stderr, stdout)

/-- `_stdout_or_raise`. -/
def stdoutOrRaise (completed : Int × String × String) (action : String) : Except Raised String :=
  let detail := String.ofList (pyStrip completed.2.1.toList)
  if completed.1 = 0 then .ok completed.2.2
  else .error (.ferm (if detail = "" then "etckeeper vcs " ++ action ++ " failed" else detail))

/-- `working_tree_dirty` of a path: the status lists something. -/
def workingTreeDirty (subpath : String) : Act ρ Raised Bool := do
  let completed ← vcs git "status" ["status", "--porcelain", "--", subpath]
  match stdoutOrRaise completed "status" with
  | .error e => throw e
  | .ok stdout => return decide (pyStrip stdout.toList ≠ [])

/-! ## The rollback -/

/-- `_validate_revision`. -/
def validateRevision (sha : String) : Except Raised Unit :=
  if startsWith sha "-" then .error (.ferm ("invalid revision " ++ pyRepr sha ++ ": leading '-' not allowed"))
  else if ['.', '.'] <:+: sha.toList then .error (.ferm ("invalid revision " ++ pyRepr sha ++ ": range not allowed"))
  else if sha.toList ≠ [] ∧ sha.toList.all (fun c => c.isAlphanum || "_./-".toList.contains c) then .ok ()
  else .error (.ferm ("invalid revision " ++ pyRepr sha))

/-- `_describe_failure`. -/
def describeFailure (code : Int) (stderr : String) : String :=
  let reason := String.ofList (pyStrip stderr.toList)
  if reason = "" then "exit " ++ toString code else reason

/-- One step of the rollback: its process is run, and it is an error if it fails. -/
def runStep (sha subpath : String) (step : GitStep) : Act ρ Raised Unit := do
  let completed ← vcs git step.action (step.args sha subpath)
  if completed.1 ≠ 0 then
    throw (.ferm ("rollback " ++ step.action ++ " failed: " ++ describeFailure completed.1 completed.2.1))

/-- `rollback`. -/
def etckeeperRollback (sha subpath : String) : Act ρ Raised Unit := do
  match validateRevision sha with
  | .error e => throw e
  | .ok () => Act.each (runStep git sha subpath) [.unstage, .checkout, .clean]

end Processes

/-! ## What a rollback leaves -/

section

variable {ρ : Type} {git : Vcs ρ} {sha subpath : String} {step : GitStep} {repo repo' : ρ}

/-- A process that can be run. -/
theorem vcs_returned {action stderr stdout : String} {args : List String} {code : Int}
    (h : git.run args repo = ((.returned code stderr, stdout), repo')) :
    vcs git action args repo = (.ok (code, stderr, stdout), repo') := by
  have hrun : (Act.ofState (git.run args) : Act ρ Raised (Completed × String)) repo = (.ok (.returned code stderr, stdout), repo') := by
    rw [Act.ofState_apply, h]
  exact Act.bind_of_ok hrun

/-- A process that cannot be run. -/
theorem vcs_failed {action reason stdout : String} {args : List String} (h : git.run args repo = ((.failed reason, stdout), repo')) :
    vcs git action args repo = (.error (.ferm ("etckeeper vcs " ++ action ++ " failed: " ++ reason)), repo') := by
  have hrun : (Act.ofState (git.run args) : Act ρ Raised (Completed × String)) repo = (.ok (.failed reason, stdout), repo') := by
    rw [Act.ofState_apply, h]
  exact Act.bind_of_ok hrun

/-- A step whose process ends well. -/
theorem runStep_of_succeeds (h : git.succeeds sha subpath step repo = true) :
    runStep git sha subpath step repo = (.ok (), git.after sha subpath step repo) := by
  rw [Vcs.succeeds] at h
  rw [Vcs.after]
  rcases hrun : git.run (step.args sha subpath) repo with ⟨⟨completed, stdout⟩, repo'⟩
  rw [hrun] at h
  cases completed with
  | failed reason => cases h
  | returned code stderr =>
    obtain rfl : code = 0 := of_decide_eq_true h
    exact Act.bind_of_ok (vcs_returned hrun)

/-- A step whose process fails, or cannot be run. -/
theorem runStep_of_fails (h : git.succeeds sha subpath step repo = false) :
    ∃ message, runStep git sha subpath step repo = (.error (.ferm message), git.after sha subpath step repo) := by
  rw [Vcs.succeeds] at h
  rw [Vcs.after]
  rcases hrun : git.run (step.args sha subpath) repo with ⟨⟨completed, stdout⟩, repo'⟩
  rw [hrun] at h
  cases completed with
  | failed reason => exact ⟨_, Act.bind_of_error (vcs_failed hrun)⟩
  | returned code stderr =>
    have hcode : code ≠ 0 := of_decide_eq_false h
    refine ⟨"rollback " ++ step.action ++ " failed: " ++ describeFailure code stderr, (Act.bind_of_ok (vcs_returned hrun)).trans ?_⟩
    rw [if_pos hcode]
    rfl

/-- How a rollback ends: with an error at one of its steps, or with all of them done. -/
inductive RollbackEnds (git : Vcs ρ) (sha subpath : String) (repo : ρ) : Except Raised Unit → ρ → Prop
  | unstage (h : git.succeeds sha subpath .unstage repo = false) (message : String) :
    RollbackEnds git sha subpath repo (.error (.ferm message)) (git.after sha subpath .unstage repo)
  | checkout (h : git.succeeds sha subpath .unstage repo = true)
    (h' : git.succeeds sha subpath .checkout (git.before sha subpath .checkout repo) = false) (message : String) :
    RollbackEnds git sha subpath repo (.error (.ferm message)) (git.after sha subpath .checkout (git.before sha subpath .checkout repo))
  | clean (h : git.succeeds sha subpath .unstage repo = true)
    (h' : git.succeeds sha subpath .checkout (git.before sha subpath .checkout repo) = true)
    (h'' : git.succeeds sha subpath .clean (git.before sha subpath .clean repo) = false) (message : String) :
    RollbackEnds git sha subpath repo (.error (.ferm message)) (git.after sha subpath .clean (git.before sha subpath .clean repo))
  | done (h : git.succeeds sha subpath .unstage repo = true)
    (h' : git.succeeds sha subpath .checkout (git.before sha subpath .checkout repo) = true)
    (h'' : git.succeeds sha subpath .clean (git.before sha subpath .clean repo) = true) :
    RollbackEnds git sha subpath repo (.ok ()) (git.after sha subpath .clean (git.before sha subpath .clean repo))

theorem etckeeperRollback_ends (hvalid : validateRevision sha = .ok ()) (git : Vcs ρ) (subpath : String) (repo : ρ) :
    RollbackEnds git sha subpath repo (etckeeperRollback git sha subpath repo).1 (etckeeperRollback git sha subpath repo).2 := by
  have hsteps : etckeeperRollback git sha subpath repo = Act.each (runStep git sha subpath) [.unstage, .checkout, .clean] repo := by
    rw [etckeeperRollback, hvalid]
  rw [hsteps]
  cases hunstage : git.succeeds sha subpath .unstage repo with
  | false =>
    obtain ⟨message, hrun⟩ := runStep_of_fails hunstage
    have hall : Act.each (runStep git sha subpath) [.unstage, .checkout, .clean] repo = _ := Act.bind_of_error hrun
    rw [hall]
    exact .unstage hunstage message
  | true =>
    have hfirst : Act.each (runStep git sha subpath) [.unstage, .checkout, .clean] repo =
        Act.each (runStep git sha subpath) [.checkout, .clean] (git.before sha subpath .checkout repo) :=
      Act.bind_of_ok (runStep_of_succeeds hunstage)
    rw [hfirst]
    cases hcheckout : git.succeeds sha subpath .checkout (git.before sha subpath .checkout repo) with
    | false =>
      obtain ⟨message, hrun⟩ := runStep_of_fails hcheckout
      have hall : Act.each (runStep git sha subpath) [.checkout, .clean] (git.before sha subpath .checkout repo) = _ :=
        Act.bind_of_error hrun
      rw [hall]
      exact .checkout hunstage hcheckout message
    | true =>
      have hsecond : Act.each (runStep git sha subpath) [.checkout, .clean] (git.before sha subpath .checkout repo) =
          Act.each (runStep git sha subpath) [.clean] (git.before sha subpath .clean repo) :=
        Act.bind_of_ok (runStep_of_succeeds hcheckout)
      rw [hsecond]
      cases hclean : git.succeeds sha subpath .clean (git.before sha subpath .clean repo) with
      | false =>
        obtain ⟨message, hrun⟩ := runStep_of_fails hclean
        have hall : Act.each (runStep git sha subpath) [.clean] (git.before sha subpath .clean repo) = _ := Act.bind_of_error hrun
        rw [hall]
        exact .clean hunstage hcheckout hclean message
      | true =>
        have hall : Act.each (runStep git sha subpath) [.clean] (git.before sha subpath .clean repo) = _ :=
          Act.bind_of_ok (runStep_of_succeeds hclean)
        rw [hall]
        exact .done hunstage hcheckout hclean

end

section Atomic

variable {ρ : Type} {git : Vcs ρ} {sha subpath : String} {repo : ρ}

/-- Index and worktree are the same under the path. -/
def SameUnder (git : Vcs ρ) (subpath : String) (repo repo' : ρ) : Prop :=
  ∀ path, isUnder subpath path = true →
    (git.look repo').index.get? path = (git.look repo).index.get? path ∧
      (git.look repo').worktree.get? path = (git.look repo).worktree.get? path

/-- When a rollback that fails leaves index and worktree as they are: an unstaging that fails has not unstaged anything; a checkout
that fails, with nothing staged before it, has staged just what had been, and written what was there; and a cleaning that fails has
not removed anything, and the revision has just the files that were staged, as they were written. -/
structure FailsCleanly (git : Vcs ρ) (sha subpath : String) (repo : ρ) : Prop where
  unstage : git.succeeds sha subpath .unstage repo = false → ∀ path, isUnder subpath path = true →
    (git.look (git.after sha subpath .unstage repo)).index.get? path = (git.look repo).index.get? path
  checkout : git.succeeds sha subpath .unstage repo = true →
    git.succeeds sha subpath .checkout (git.before sha subpath .checkout repo) = false → ∀ path, isUnder subpath path = true →
      (git.look (git.after sha subpath .checkout (git.before sha subpath .checkout repo))).index.get? path =
          (git.look repo).index.get? path ∧
        (git.look (git.after sha subpath .checkout (git.before sha subpath .checkout repo))).worktree.get? path =
          (git.look repo).worktree.get? path
  clean : git.succeeds sha subpath .unstage repo = true →
    git.succeeds sha subpath .checkout (git.before sha subpath .checkout repo) = true →
    git.succeeds sha subpath .clean (git.before sha subpath .clean repo) = false →
      ∀ files, (git.look repo).filesOf sha subpath = some files → ∀ path, isUnder subpath path = true →
        files.get? path = (git.look repo).index.get? path ∧
        (files.get? path).or ((git.look repo).worktree.get? path) = (git.look repo).worktree.get? path ∧
          (git.look (git.after sha subpath .clean (git.before sha subpath .clean repo))).worktree.get? path =
            (git.look (git.before sha subpath .clean repo)).worktree.get? path

theorem filesOf_eq_of_revisions {repo repo' : Repo} (h : repo'.revisions = repo.revisions) (sha subpath : String) :
    repo'.filesOf sha subpath = repo.filesOf sha subpath := by
  rw [Repo.filesOf, Repo.filesOf, h]

/-- What is staged and written when the checkout has ended well. -/
theorem Vcs.Documented.checkedOut (hgit : git.Documented sha subpath) (hunstage : git.succeeds sha subpath .unstage repo = true)
    (hcheckout : git.succeeds sha subpath .checkout (git.before sha subpath .checkout repo) = true) :
    ∃ files, (git.look repo).filesOf sha subpath = some files ∧ ∀ path, isUnder subpath path = true →
      (git.look (git.before sha subpath .clean repo)).index.get? path = files.get? path ∧
        (git.look (git.before sha subpath .clean repo)).worktree.get? path =
          (files.get? path).or ((git.look repo).worktree.get? path) := by
  obtain ⟨files, hfiles, hwritten⟩ := hgit.checkout _ hcheckout
  refine ⟨files, ?_, fun path hpath => ?_⟩
  · rwa [Vcs.before, filesOf_eq_of_revisions (hgit.unstage_revisions repo)] at hfiles
  · obtain ⟨hindex, hworktree⟩ := hwritten path hpath
    rw [Vcs.before, hgit.unstage_index repo hunstage path hpath, Option.or_none] at hindex
    rw [Vcs.before, hgit.unstage_worktree repo path hpath] at hworktree
    exact ⟨hindex, hworktree⟩

/-- A cleaning that fails leaves the worktree as it was before the rollback when the checkout wrote what was there, and it has not
removed anything. -/
theorem Vcs.Documented.worktree_clean_iff (hgit : git.Documented sha subpath) {files : Tree} {path : String}
    (hpath : isUnder subpath path = true) (hindex : (git.look (git.before sha subpath .clean repo)).index.get? path = files.get? path)
    (hworktree : (git.look (git.before sha subpath .clean repo)).worktree.get? path =
      (files.get? path).or ((git.look repo).worktree.get? path)) :
    (git.look (git.after sha subpath .clean (git.before sha subpath .clean repo))).worktree.get? path =
        (git.look repo).worktree.get? path ↔
      (files.get? path).or ((git.look repo).worktree.get? path) = (git.look repo).worktree.get? path ∧
        (git.look (git.after sha subpath .clean (git.before sha subpath .clean repo))).worktree.get? path =
          (git.look (git.before sha subpath .clean repo)).worktree.get? path := by
  rcases hgit.clean_removes (git.before sha subpath .clean repo) path hpath with hsame | ⟨huntracked, -, hgone⟩
  · rw [hsame, hworktree, and_iff_left rfl]
  · -- a file that is removed is not one of the revision's
    have hnone : files.get? path = none := by
      rw [← hindex, Dict.get?_eq_none_iff]
      exact huntracked
    rw [hgone, hworktree, hnone, Option.none_or, and_iff_right rfl]

/-- A rollback that fails leaves index and worktree as they are exactly under the condition. -/
theorem etckeeperRollback_atomic_iff (hgit : git.Documented sha subpath) (hvalid : validateRevision sha = .ok ()) (repo : ρ) :
    (∀ e, (etckeeperRollback git sha subpath repo).1 = .error e →
      SameUnder git subpath repo (etckeeperRollback git sha subpath repo).2) ↔ FailsCleanly git sha subpath repo := by
  have hends := etckeeperRollback_ends hvalid git subpath repo
  generalize etckeeperRollback git sha subpath repo = out at hends
  obtain ⟨r, repo'⟩ := out
  simp only at hends ⊢
  have hforall : ∀ {message : String} {P : Prop}, (∀ e, (Except.error (.ferm message) : Except Raised Unit) = .error e → P) ↔ P :=
    ⟨fun h => h _ rfl, fun h _ _ => h⟩
  cases hends with
  | unstage h message =>
    rw [hforall]
    constructor
    · intro hsame
      refine ⟨fun _ path hpath => (hsame path hpath).1, fun hok => ?_, fun hok => ?_⟩ <;>
      · rw [h] at hok
        cases hok
    · exact fun hclean path hpath => ⟨hclean.unstage h path hpath, hgit.unstage_worktree repo path hpath⟩
  | checkout h h' message =>
    rw [hforall]
    constructor
    · intro hsame
      refine ⟨fun hno => ?_, fun _ _ path hpath => hsame path hpath, fun _ hok => ?_⟩
      · rw [h] at hno
        cases hno
      · rw [h'] at hok
        cases hok
    · exact fun hclean => hclean.checkout h h'
  | clean h h' h'' message =>
    rw [hforall]
    obtain ⟨files, hfiles, hwritten⟩ := hgit.checkedOut h h'
    constructor
    · intro hsame
      refine ⟨fun hno => ?_, fun _ hno => ?_, fun _ _ _ files' hfiles' path hpath => ?_⟩
      · rw [h] at hno
        cases hno
      · rw [h'] at hno
        cases hno
      · obtain rfl := Option.some.inj (hfiles.symm.trans hfiles')
        obtain ⟨hindex, hworktree⟩ := hwritten path hpath
        obtain ⟨hindex', hworktree'⟩ := hsame path hpath
        refine ⟨?_, (hgit.worktree_clean_iff hpath hindex hworktree).1 hworktree'⟩
        rw [← hindex, ← hindex', hgit.clean_index _ path hpath]
    · intro hclean path hpath
      obtain ⟨hindex, hworktree⟩ := hwritten path hpath
      obtain ⟨hstaged, hkept⟩ := hclean.clean h h' h'' files hfiles path hpath
      refine ⟨?_, (hgit.worktree_clean_iff hpath hindex hworktree).2 hkept⟩
      rw [hgit.clean_index _ path hpath, hindex, hstaged]
  | done h h' h'' =>
    refine iff_of_true (fun e he => (by cases he)) ⟨fun hno => ?_, fun _ hno => ?_, fun _ _ hno => ?_⟩
    · rw [h] at hno
      cases hno
    · rw [h'] at hno
      cases hno
    · rw [h''] at hno
      cases hno

end Atomic

/-! ## A git that does what it is asked -/

namespace Repo

/-- A path that `git status` lists: the index differs from the current revision there, or the file from the index, or the file is
neither tracked nor ignored. -/
def changed (repo : Repo) (path : String) : Bool :=
  repo.index.get? path ≠ repo.head.get? path || (repo.worktree.get? path ≠ repo.index.get? path &&
    (decide (path ∈ repo.index) || !repo.ignored path))

/-- The paths under the managed one that `git status` lists. -/
def status (repo : Repo) (subpath : String) : List String :=
  (repo.head.keys ++ repo.index.keys ++ repo.worktree.keys).filter fun path => isUnder subpath path && repo.changed path

/-- The repository without anything staged under the path. -/
def unstaged (repo : Repo) (subpath : String) : Repo :=
  { repo with index := repo.index.filterKeys fun path => !isUnder subpath path }

/-- The repository with files of a revision staged and written. -/
def checkedOut (repo : Repo) (files : Tree) : Repo :=
  { repo with
    index := files.merge (fun content _ => content) repo.index
    worktree := files.merge (fun content _ => content) repo.worktree }

/-- The repository without the files under the path that are neither tracked nor ignored. -/
def cleaned (repo : Repo) (subpath : String) : Repo :=
  { repo with
    worktree := repo.worktree.filterKeys fun path => !isUnder subpath path || decide (path ∈ repo.index) || repo.ignored path }

end Repo

/-- A process that ends well, or is refused. -/
def gitAnswer (refusal : Option String) (repo repo' : Repo) : (Completed × String) × Repo :=
  match refusal with
  | some stderr => ((.returned 128 stderr, ""), repo)
  | none => ((.returned 0 "", ""), repo')

/-- A checkout needs files of the revision under the path. -/
def gitCheckout (refusal : Option String) (sha subpath : String) (repo : Repo) : (Completed × String) × Repo :=
  match repo.filesOf sha subpath with
  | some files => gitAnswer refusal repo (repo.checkedOut files)
  | none => gitAnswer (some ("error: pathspec '" ++ subpath ++ "' did not match")) repo repo

/-- A git on repositories that are just what there is to see, which does what it is asked unless it refuses a step. -/
def plainGit (refusal : GitStep → Option String) : Vcs Repo where
  look := id
  run args repo :=
    match args with
    | ["status", _, _, subpath] => ((.returned 0 "", String.join ((repo.status subpath).map fun path => " M " ++ path ++ "\n")), repo)
    | ["rm", _, _, _, _, subpath] => gitAnswer (refusal .unstage) repo (repo.unstaged subpath)
    | ["checkout", sha, _, subpath] => gitCheckout (refusal .checkout) sha subpath repo
    | ["clean", _, _, _, subpath] => gitAnswer (refusal .clean) repo (repo.cleaned subpath)
    | _ => gitAnswer (some "usage: git") repo repo

theorem gitAnswer_cases (refusal : Option String) (repo repo' : Repo) :
    (gitAnswer refusal repo repo').1.1.ok = false ∧ (gitAnswer refusal repo repo').2 = repo ∨
      (gitAnswer refusal repo repo').1.1.ok = true ∧ (gitAnswer refusal repo repo').2 = repo' := by
  cases refusal with
  | none => exact .inr ⟨rfl, rfl⟩
  | some stderr => exact .inl ⟨rfl, rfl⟩

theorem Repo.worktree_cleaned {repo : Repo} {subpath path : String} (hpath : isUnder subpath path = true) :
    (repo.cleaned subpath).worktree.get? path =
      if path ∈ repo.index ∨ repo.ignored path = true then repo.worktree.get? path else none := by
  rw [Repo.cleaned, Dict.get?_filterKeys, hpath]
  simp

theorem documented_plainGit (refusal : GitStep → Option String) (sha subpath : String) : (plainGit refusal).Documented sha subpath where
  unstage_worktree repo path _ := by
    change ((gitAnswer (refusal .unstage) repo (repo.unstaged subpath)).2).worktree.get? path = repo.worktree.get? path
    rcases gitAnswer_cases (refusal .unstage) repo (repo.unstaged subpath) with ⟨-, h⟩ | ⟨-, h⟩
    · rw [h]
    · rw [h]
      rfl
  unstage_revisions repo := by
    change ((gitAnswer (refusal .unstage) repo (repo.unstaged subpath)).2).revisions = repo.revisions
    rcases gitAnswer_cases (refusal .unstage) repo (repo.unstaged subpath) with ⟨-, h⟩ | ⟨-, h⟩
    · rw [h]
    · rw [h]
      rfl
  unstage_index repo hok path hpath := by
    change (gitAnswer (refusal .unstage) repo (repo.unstaged subpath)).1.1.ok = true at hok
    change ((gitAnswer (refusal .unstage) repo (repo.unstaged subpath)).2).index.get? path = none
    rcases gitAnswer_cases (refusal .unstage) repo (repo.unstaged subpath) with ⟨hno, -⟩ | ⟨-, h⟩
    · rw [hno] at hok
      cases hok
    · rw [h, Repo.unstaged, Dict.get?_filterKeys, hpath]
      rfl
  checkout repo hok := by
    change (gitCheckout (refusal .checkout) sha subpath repo).1.1.ok = true at hok
    change ∃ files, repo.filesOf sha subpath = some files ∧ ∀ path, isUnder subpath path = true →
      ((gitCheckout (refusal .checkout) sha subpath repo).2).index.get? path = (files.get? path).or (repo.index.get? path) ∧
        ((gitCheckout (refusal .checkout) sha subpath repo).2).worktree.get? path = (files.get? path).or (repo.worktree.get? path)
    rw [gitCheckout] at hok ⊢
    cases hfiles : repo.filesOf sha subpath with
    | none =>
      rw [hfiles] at hok
      cases hok
    | some files =>
      rw [hfiles] at hok
      simp only at hok ⊢
      refine ⟨files, rfl, fun path _ => ?_⟩
      rcases gitAnswer_cases (refusal .checkout) repo (repo.checkedOut files) with ⟨hno, -⟩ | ⟨-, h⟩
      · rw [hno] at hok
        cases hok
      · rw [h, Repo.checkedOut, Dict.get?_merge, Dict.get?_merge]
        cases files.get? path <;> exact ⟨rfl, rfl⟩
  clean_index repo path _ := by
    change ((gitAnswer (refusal .clean) repo (repo.cleaned subpath)).2).index.get? path = repo.index.get? path
    rcases gitAnswer_cases (refusal .clean) repo (repo.cleaned subpath) with ⟨-, h⟩ | ⟨-, h⟩
    · rw [h]
    · rw [h]
      rfl
  clean_removes repo path hpath := by
    change ((gitAnswer (refusal .clean) repo (repo.cleaned subpath)).2).worktree.get? path = repo.worktree.get? path ∨
      path ∉ repo.index ∧ repo.ignored path = false ∧
        ((gitAnswer (refusal .clean) repo (repo.cleaned subpath)).2).worktree.get? path = none
    rcases gitAnswer_cases (refusal .clean) repo (repo.cleaned subpath) with ⟨-, h⟩ | ⟨-, h⟩
    · exact .inl (by rw [h])
    · rw [h, Repo.worktree_cleaned hpath]
      by_cases hkept : path ∈ repo.index ∨ repo.ignored path = true
      · exact .inl (if_pos hkept)
      · rw [if_neg hkept]
        rw [not_or, Bool.not_eq_true] at hkept
        exact .inr ⟨hkept.1, hkept.2, rfl⟩
  clean_worktree repo hok path hpath huntracked hignored := by
    change (gitAnswer (refusal .clean) repo (repo.cleaned subpath)).1.1.ok = true at hok
    change ((gitAnswer (refusal .clean) repo (repo.cleaned subpath)).2).worktree.get? path = none
    rcases gitAnswer_cases (refusal .clean) repo (repo.cleaned subpath) with ⟨hno, -⟩ | ⟨-, h⟩
    · rw [hno] at hok
      cases hok
    · rw [h, Repo.worktree_cleaned hpath, if_neg]
      exact not_or.2 ⟨huntracked, fun h => Bool.false_ne_true (hignored.symm.trans h)⟩

end Ferm
