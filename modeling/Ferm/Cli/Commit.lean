import Ferm.Cli.Apply

/-!
# Committing the families

What a commit runs for one family, and when it reports a failure. A restore that fails and a command of the slow list that exits
non-zero are reported by a status, and the driver rolls every family back for it once the others have been committed. What raises
ends the run where it stands.
-/

namespace Ferm

/-! ## A commit -/

/-- `Command`. An unguarded one is run after a failure, too. -/
structure RenderedCommand where
  text : String
  guarded : Bool := true
  deriving DecidableEq, Repr

/-- `Rendered`: a save, or the commands of the slow list. -/
inductive Rendered where
  | save (text : String)
  | commands (commands : List RenderedCommand)
  deriving DecidableEq, Repr

variable {σ : Type}

/-- `_commit_slow`, with the status so far. -/
def commitSlow (world : World σ) (options : IoOptions) : List RenderedCommand → Option Int → Act σ Raised (Option Int)
  | [], status => pure status
  | command :: commands, status =>
    if command.guarded then
      if status.getD 0 = 0 then do
        let status ← execute world options command.text
        commitSlow world options commands status
      else commitSlow world options commands status
    else do
      let _ ← execute world options command.text
      commitSlow world options commands status

namespace LiveDomain

variable {domain : Family}

/-- `IptablesBackend.commit`. -/
def iptablesCommit (world : World σ) (options : IoOptions) (shell : Bool) (info : LiveDomain .iptables domain) :
    Rendered → Act σ Raised (Option Int)
  | .save text => commitFast world options shell (info.tool TOOL_RESTORE) text
  | .commands commands => commitSlow world options commands none

/-- `NftBackend.commit`. The script for a rendered save is the delta or the full reload; no script is an empty delta. -/
def nftCommit (script : String → Except FermError String) (world : World σ) (options : IoOptions) (shell : Bool)
    (info : LiveDomain .nft domain) : Rendered → Act σ Raised (Option Int)
  | .save save =>
    match script save with
    | .error e => throw (.ferm e.message)
    | .ok text => commitNft world options shell (info.tool TOOL_NFT) text
  | .commands _ => throw (.ferm unexpectedValue.message)

/-- `Backend.commit`. -/
def commit {backend : Backend} (script : String → Except FermError String) (world : World σ) (options : IoOptions) (shell : Bool)
    (info : LiveDomain backend domain) (rendered : Rendered) : Act σ Raised (Option Int) :=
  match backend, info with
  | .iptables, info => info.iptablesCommit world options shell rendered
  | .nft, info => info.nftCommit script world options shell rendered

end LiveDomain

/-! ## What a commit reports -/

section Reports

variable {world : World σ} {options : IoOptions} {shell : Bool}

/-- A guarded command of a slow list exits non-zero, with every guarded one before it exiting with zero. -/
inductive SlowReports (world : World σ) (options : IoOptions) : List RenderedCommand → σ → Prop
  | here {command : RenderedCommand} {commands : List RenderedCommand} {code : Int} {s s' : σ} (hguarded : command.guarded = true)
    (h : execute world options command.text s = (.ok (some code), s')) : SlowReports world options (command :: commands) s
  | later {command : RenderedCommand} {commands : List RenderedCommand} {status : Option Int} {s s' : σ}
    (h : execute world options command.text s = (.ok status, s')) (hpasses : command.guarded = true → status = none)
    (hrest : SlowReports world options commands s') : SlowReports world options (command :: commands) s

/-- The restore of a text fails: its tool cannot be run, or exits non-zero. -/
def SaveReports (world : World σ) (options : IoOptions) (shell : Bool) (command text : String) (restore : Act σ Raised Unit) (s : σ) : Prop :=
  options.noexec = false ∧ ∃ e s', restore (emitSave world options shell command text s).2 = (.error e, s')

/-- A step of a family's commit reports a failure. -/
def LiveDomain.Reports {backend : Backend} {domain : Family} (script : String → Except FermError String) (world : World σ)
    (options : IoOptions) (shell : Bool) (info : LiveDomain backend domain) (rendered : Rendered) (s : σ) : Prop :=
  match backend, info, rendered with
  | .iptables, info, .save text =>
    SaveReports world options shell (if options.noflush then info.tool TOOL_RESTORE ++ " --noflush" else info.tool TOOL_RESTORE) text
      (restoreDomain world options (info.tool TOOL_RESTORE) text) s
  | .iptables, _, .commands commands => SlowReports world options commands s
  | .nft, info, .save save => ∃ text, script save = .ok text ∧ text ≠ "" ∧
      SaveReports world options shell (info.tool TOOL_NFT ++ " -f -") text (nftRestore world (info.tool TOOL_NFT) text) s
  | .nft, _, .commands _ => False

/-- The status of a command that fails is not zero. -/
theorem runCommand_ne_zero {command : String} {s s' : σ} {code : Int} (h : runCommand world command s = (.ok (some code), s')) :
    code ≠ 0 := by
  unfold runCommand at h
  obtain ⟨completed, s₁, -, h⟩ := Act.bind_eq_ok.1 h
  cases completed with
  | failed reason =>
    obtain ⟨_, _, _, h⟩ := Act.bind_eq_ok.1 h
    cases h
  | returned status stderr =>
    simp only at h
    split at h
    · cases h
    · rename_i hne
      split at h
      · obtain ⟨_, _, -, h⟩ := Act.bind_eq_ok.1 h
        cases h
        decide
      · cases h
        exact hne

theorem execute_ne_zero {command : String} {s s' : σ} {code : Int} (h : execute world options command s = (.ok (some code), s')) :
    code ≠ 0 := by
  unfold execute at h
  have hrun : ∀ {s : σ}, (if options.noexec = true then pure none else runCommand world command : Act σ Raised (Option Int)) s =
      (.ok (some code), s') → code ≠ 0 := by
    intro s h
    split at h
    · cases h
    · exact runCommand_ne_zero h
  split at h
  · obtain ⟨_, _, -, h⟩ := Act.bind_eq_ok.1 h
    exact hrun h
  · exact hrun h

/-- After a failure the guarded commands are left out, and the status stays. -/
theorem commitSlow_of_failed {commands : List RenderedCommand} {code : Int} (hcode : code ≠ 0) {s s' : σ} {status : Option Int}
    (h : commitSlow world options commands (some code) s = (.ok status, s')) : status = some code := by
  induction commands generalizing s with
  | nil => exact (Except.ok.inj (Prod.mk.inj h).1).symm
  | cons command commands ih =>
    rw [commitSlow] at h
    split at h
    · rw [if_neg (by simpa using hcode)] at h
      exact ih h
    · obtain ⟨_, _, -, h⟩ := Act.bind_eq_ok.1 h
      exact ih h

/-- A slow list gives a status exactly when one of its guarded commands reports a failure. -/
theorem commitSlow_reports {commands : List RenderedCommand} {s s' : σ} {status : Option Int}
    (h : commitSlow world options commands none s = (.ok status, s')) : status ≠ none ↔ SlowReports world options commands s := by
  induction commands generalizing s with
  | nil =>
    obtain rfl := Except.ok.inj (Prod.mk.inj h).1
    exact iff_of_false (fun h => h rfl) nofun
  | cons command commands ih =>
    rw [commitSlow] at h
    split at h
    · rename_i hguarded
      rw [if_pos (show (none : Option Int).getD 0 = 0 from rfl)] at h
      obtain ⟨status₁, s₁, hcommand, h⟩ := Act.bind_eq_ok.1 h
      cases status₁ with
      | some code =>
        rw [commitSlow_of_failed (execute_ne_zero hcommand) h]
        exact iff_of_true nofun (.here hguarded hcommand)
      | none =>
        rw [ih h]
        constructor
        · exact .later hcommand fun _ => rfl
        · rintro (⟨-, h'⟩ | ⟨h', -, hrest⟩)
          · rw [hcommand] at h'
            cases h'
          · rw [hcommand] at h'
            cases h'
            exact hrest
    · rename_i hguarded
      obtain ⟨status₁, s₁, hcommand, h⟩ := Act.bind_eq_ok.1 h
      rw [ih h]
      constructor
      · exact .later hcommand fun h => absurd h hguarded
      · rintro (⟨h, -⟩ | ⟨h', -, hrest⟩)
        · exact absurd h hguarded
        · rw [hcommand] at h'
          cases h'
          exact hrest

/-- A save that is piped to a process raises nothing but an error of `ferm`. -/
theorem pipeSave_error {args : List String} {save path : String} {detail : String → String} {s s' : σ} {e : Raised}
    (h : pipeSave world args save path detail s = (.error e, s')) : ∃ message, e = .ferm message := by
  unfold pipeSave at h
  rcases Act.bind_eq_error.1 h with h | ⟨completed, s₁, -, h⟩
  · cases h
  · cases completed with
    | failed reason =>
      cases h
      exact ⟨_, rfl⟩
    | returned code stderr =>
      simp only at h
      split at h
      · cases h
      · cases h
        exact ⟨_, rfl⟩

theorem nftRestore_error {path save : String} {s s' : σ} {e : Raised} (h : nftRestore world path save s = (.error e, s')) :
    ∃ message, e = .ferm message := by
  rcases Act.bind_eq_error.1 h with h | ⟨_, _, -, h⟩
  · exact pipeSave_error h
  · exact pipeSave_error h

/-- The commit of a text gives a status exactly when its restore fails. -/
theorem commitSave_reports {command text : String} {restore : Act σ Raised Unit}
    (hrestore : ∀ s e s', restore s = (.error e, s') → ∃ message, e = .ferm message) {s s' : σ} {status : Option Int}
    (h : commitSave world options shell command text restore s = (.ok status, s')) :
    status ≠ none ↔ SaveReports world options shell command text restore s := by
  obtain ⟨_, s₁, hscript, h⟩ := Act.bind_eq_ok.1 h
  have hs₁ : (emitSave world options shell command text s).2 = s₁ := by rw [hscript]
  rw [SaveReports, hs₁]
  cases hexec : options.noexec with
  | true =>
    rw [hexec] at h
    obtain rfl := Except.ok.inj (Prod.mk.inj h).1
    exact iff_of_false (fun h => h rfl) fun h => by cases h.1
  | false =>
    rw [hexec] at h
    simp only [Bool.false_eq_true, if_false] at h
    rcases Act.ok_or_error restore s₁ with ⟨_, s₂, hr⟩ | ⟨e, s₂, hr⟩
    · have hvalue : (do restore; return none : Act σ Raised (Option Int)) s₁ = (.ok none, s₂) := Act.bind_of_ok hr
      rw [restoreStatus, Act.tryCatch_of_ok hvalue] at h
      obtain rfl := Except.ok.inj (Prod.mk.inj h).1
      refine iff_of_false (fun h => h rfl) ?_
      rintro ⟨-, e, s₃, he⟩
      rw [hr] at he
      cases he
    · obtain ⟨message, rfl⟩ := hrestore s₁ e s₂ hr
      have hraises : (do restore; return none : Act σ Raised (Option Int)) s₁ = (.error (.ferm message), s₂) := Act.bind_of_error hr
      rw [restoreStatus, Act.tryCatch_of_error hraises] at h
      obtain ⟨_, _, -, h⟩ := Act.bind_eq_ok.1 h
      obtain rfl := Except.ok.inj (Prod.mk.inj h).1
      exact iff_of_true nofun ⟨rfl, _, _, hr⟩

/-- A commit gives a status exactly when a step of it reports a failure. -/
theorem commit_reports {backend : Backend} {domain : Family} {script : String → Except FermError String}
    {info : LiveDomain backend domain} {rendered : Rendered} {s s' : σ} {status : Option Int}
    (h : info.commit script world options shell rendered s = (.ok status, s')) :
    status ≠ none ↔ info.Reports script world options shell rendered s := by
  cases backend with
  | iptables =>
    cases rendered with
    | save text =>
      have hsave : commitFast world options shell (info.tool TOOL_RESTORE) text s = (.ok status, s') := h
      rw [commitSave_reports (fun _ _ _ hfails => pipeSave_error hfails) hsave]
      rfl
    | commands commands => exact commitSlow_reports h
  | nft =>
    cases rendered with
    | commands commands => cases h
    | save save =>
      simp only [LiveDomain.commit, LiveDomain.nftCommit] at h
      simp only [LiveDomain.Reports]
      cases hscript : script save with
      | error e =>
        rw [hscript] at h
        cases h
      | ok text =>
        rw [hscript] at h
        simp only [commitNft] at h
        split at h
        · rename_i hempty
          obtain rfl := Except.ok.inj (Prod.mk.inj h).1
          exact iff_of_false (fun h => h rfl) fun ⟨_, ht, hne, _⟩ => hne (Except.ok.inj ht ▸ hempty)
        · rename_i hne
          rw [commitSave_reports (fun _ _ _ hfails => nftRestore_error hfails) h]
          constructor
          · exact fun hr => ⟨text, rfl, hne, hr⟩
          · rintro ⟨_, ht, -, hr⟩
            cases ht
            exact hr

/-- A command raises nothing but the exit for a process that cannot be run. -/
theorem execute_error {command : String} {s s' : σ} {e : Raised} (h : execute world options command s = (.error e, s')) :
    e = .exit ExitCode.ERROR := by
  have hrun : ∀ {s : σ}, (if options.noexec = true then pure none else runCommand world command : Act σ Raised (Option Int)) s =
      (.error e, s') → e = .exit ExitCode.ERROR := by
    intro s h
    split at h
    · cases h
    · unfold runCommand at h
      rcases Act.bind_eq_error.1 h with h | ⟨completed, s₁, -, h⟩
      · cases h
      · cases completed with
        | failed reason =>
          rcases Act.bind_eq_error.1 h with h | ⟨_, _, -, h⟩
          · cases h
          · cases h
            rfl
        | returned code stderr =>
          simp only at h
          split at h
          · cases h
          · split at h
            · rcases Act.bind_eq_error.1 h with h | ⟨_, _, -, h⟩ <;> cases h
            · cases h
  unfold execute at h
  split at h
  · rcases Act.bind_eq_error.1 h with h | ⟨_, _, -, h⟩
    · cases h
    · exact hrun h
  · exact hrun h

/-- The rollback of one family does not end with the exit of the rollback of all. -/
theorem rollback_ne_rolledBack {backend : Backend} {domain : Family} {info : LiveDomain backend domain} {s s' : σ} {e : Raised}
    (h : info.rollback world options s = (.error e, s')) : e ≠ .rolledBack := by
  have hcommand : ∀ {command : String} {s : σ}, (do let _ ← execute world options command : Act σ Raised Unit) s = (.error e, s') →
      e ≠ .rolledBack := by
    intro command s h
    rcases Act.bind_eq_error.1 h with h | ⟨_, _, -, h⟩
    · rw [execute_error h]
      intro hrolled
      cases hrolled
    · cases h
  cases backend with
  | iptables =>
    simp only [LiveDomain.rollback, LiveDomain.iptablesRollback] at h
    split at h
    · cases h
    · split at h
      · obtain ⟨ebTable, -, s₁, h⟩ := Act.each_error h
        exact hcommand h
      · split at h
        · obtain ⟨message, rfl⟩ := pipeSave_error h
          intro hrolled
          cases hrolled
        · cases h
  | nft =>
    simp only [LiveDomain.rollback, LiveDomain.nftRollback] at h
    split at h
    · cases h
    · split at h
      · obtain ⟨message, rfl⟩ := nftRestore_error h
        intro hrolled
        cases hrolled
      · exact hcommand h

end Reports

/-! ## The run of all families -/

/-- The seams of a live run: families are committed and rolled back as their backend does it, the rest is as `base` has it. -/
def liveSeams {backend : Backend} (base : ApplySeams σ Rendered) (script : Family → String → Except FermError String)
    (world : Family → World σ) (message : String → σ → σ) (options : IoOptions) (shell : Bool) (domains : Domains backend) :
    ApplySeams σ Rendered :=
  { base with
    commit := fun domain rendered =>
      match domains domain with
      | some info => info.commit (script domain) (world domain) options shell rendered
      | none => pure none
    rollbackAll := rollbackAll world message options domains }

/-- The commit of one family: what was rendered for it, and the state it is committed in. -/
structure CommitStep (σ : Type) where
  domain : Family
  rendered : Rendered
  state : σ

/-- Families are rendered and committed in turn, and nothing raises. -/
inductive CommitsTo (seams : ApplySeams σ Rendered) : List Family → Option Int → σ → List (CommitStep σ) → Option Int → σ → Prop
  | nil {status : Option Int} {s : σ} : CommitsTo seams [] status s [] status s
  | cons {domain : Family} {domains : List Family} {rendered : Rendered} {status result status' : Option Int} {s s₁ s₂ s' : σ}
    {steps : List (CommitStep σ)} (hrender : seams.render domain s = (.ok rendered, s₁))
    (hcommit : seams.commit domain rendered s₁ = (.ok result, s₂))
    (hrest : CommitsTo seams domains (result.or status) (seams.closeRendered rendered s₂) steps status' s') :
    CommitsTo seams (domain :: domains) status s (⟨domain, rendered, s₁⟩ :: steps) status' s'

/-- The commits of a run of the driver, when none raises. -/
theorem commitsTo_iff {seams : ApplySeams σ Rendered} {domains : List Family} {status status' : Option Int} {s s' : σ} :
    seams.commitFamilies domains status s = (.ok status', s') ↔ ∃ steps, CommitsTo seams domains status s steps status' s' := by
  constructor
  · intro h
    induction domains generalizing status s with
    | nil =>
      cases h
      exact ⟨[], .nil⟩
    | cons domain domains ih =>
      obtain ⟨status₁, s₃, hone, h⟩ := Act.bind_eq_ok.1 h
      obtain ⟨rendered, s₁, hrender, hone⟩ := Act.bind_eq_ok.1 hone
      obtain ⟨result, s₂, hcommit, hresult⟩ := Act.bind_eq_ok.1 hone
      cases hresult
      obtain ⟨steps, hsteps⟩ := ih h
      rcases hc : seams.commit domain rendered s₁ with ⟨r, s₂⟩
      rw [Act.ensuring, hc] at hcommit
      obtain ⟨rfl, rfl⟩ := Prod.mk.inj hcommit
      exact ⟨_, .cons hrender hc hsteps⟩
  · rintro ⟨steps, h⟩
    induction h with
    | nil => rfl
    | cons hrender hcommit _ ih =>
      refine (Act.bind_of_ok ((Act.bind_of_ok hrender).trans (Act.bind_of_ok ?_))).trans ih
      rw [Act.ensuring, hcommit]

section Run

variable {backend : Backend} {base : ApplySeams σ Rendered} {script : Family → String → Except FermError String}
  {world : Family → World σ} {message : String → σ → σ} {ioOptions : IoOptions} {shell : Bool} {domains : Domains backend}

/-- A step of a run reports a failure. -/
def CommitStep.Reports (script : Family → String → Except FermError String) (world : Family → World σ) (ioOptions : IoOptions)
    (shell : Bool) (domains : Domains backend) (step : CommitStep σ) : Prop :=
  ∃ info, domains step.domain = some info ∧
    info.Reports (script step.domain) (world step.domain) ioOptions shell step.rendered step.state

/-- The status of a run is one exactly when it was one before or a step reports a failure. -/
theorem CommitsTo.reports {families : List Family} {status status' : Option Int} {s s' : σ} {steps : List (CommitStep σ)}
    (h : CommitsTo (liveSeams base script world message ioOptions shell domains) families status s steps status' s') :
    status' ≠ none ↔ status ≠ none ∨ ∃ step ∈ steps, step.Reports script world ioOptions shell domains := by
  induction h with
  | nil => simp
  | @cons domain families rendered status result status' s s₁ s₂ s' steps hrender hcommit _ ih =>
    have hstep : result ≠ none ↔ (CommitStep.mk domain rendered s₁).Reports script world ioOptions shell domains := by
      simp only [liveSeams] at hcommit
      simp only [CommitStep.Reports]
      cases hdomain : domains domain with
      | none =>
        rw [hdomain] at hcommit
        cases hcommit
        exact iff_of_false (fun h => h rfl) fun ⟨_, h, _⟩ => by cases h
      | some info =>
        rw [hdomain] at hcommit
        rw [commit_reports hcommit]
        exact ⟨fun h => ⟨info, rfl, h⟩, fun ⟨_, h, hreports⟩ => by cases h; exact hreports⟩
    have hor : result.or status ≠ none ↔ result ≠ none ∨ status ≠ none := by
      cases result <;> simp
    rw [ih, hor, hstep, List.exists_mem_cons_iff]
    tauto

/-- A rollback of all families never returns. Where it ends with its own exit, the rollback of every enabled family was run to its end. -/
theorem rollbackAll_raises (s : σ) : ∃ e s', rollbackAll world message ioOptions domains s = (.error e, s') ∧
    (e = .rolledBack → ∀ d ∈ enabledDomains domains, ∃ s₁ s₂, d.2.rollback (world d.1) ioOptions s₁ = (.ok (), s₂)) := by
  rcases Act.ok_or_error (Act.each (fun d => d.2.rollback (world d.1) ioOptions) (enabledDomains domains)) s with
    ⟨u, s₁, heach⟩ | ⟨e, s₁, heach⟩
  · exact ⟨.rolledBack, message "\nFirewall rules rolled back.\n" s₁, Act.bind_of_ok heach, fun _ => Act.each_ok heach⟩
  · refine ⟨e, s₁, Act.bind_of_error heach, ?_⟩
    rintro rfl
    obtain ⟨d, -, s₂, hd⟩ := Act.each_error heach
    exact absurd rfl (rollback_ne_rolledBack hd)

/-- A run of the driver in which no hook, rendering or commit raises. When a step of a commit reports a failure, the run ends with the
rollback of all families, and with its exception; a run that succeeds has no such step. -/
theorem reported_failure_rolls_back {options : ApplyOptions} (hplan : options.plan = false) {defs : List String} {parsed : Parsed}
    {s s₁ s₂ s₃ s₄ : σ} {steps : List (CommitStep σ)} {status : Option Int}
    (hprepare : (liveSeams base script world message ioOptions shell domains).prepare defs s = (.ok parsed, s₁))
    (hpre : Act.each base.runHook (if options.flush then [] else parsed.preHooks) s₁ = (.ok (), s₂))
    (hcommits : CommitsTo (liveSeams base script world message ioOptions shell domains) parsed.domains none s₂ steps status s₃)
    (hpost : Act.each base.runHook (if options.flush then parsed.flushHooks else parsed.postHooks) s₃ = (.ok (), s₄)) :
    ((∃ step ∈ steps, step.Reports script world ioOptions shell domains) →
      ∃ e s₅, rollbackAll world message ioOptions domains s₄ = (.error e, s₅) ∧
        (liveSeams base script world message ioOptions shell domains).applyConfig options defs s = (.error e, base.closeDomains s₅) ∧
        (e = .rolledBack → ∀ d ∈ enabledDomains domains, ∃ s s', d.2.rollback (world d.1) ioOptions s = (.ok (), s'))) ∧
      ∀ code s', (liveSeams base script world message ioOptions shell domains).applyConfig options defs s = (.ok code, s') →
        ¬∃ step ∈ steps, step.Reports script world ioOptions shell domains := by
  have hfails : (∃ step ∈ steps, step.Reports script world ioOptions shell domains) →
      ∃ e s₅, rollbackAll world message ioOptions domains s₄ = (.error e, s₅) ∧
        (liveSeams base script world message ioOptions shell domains).applyConfig options defs s = (.error e, base.closeDomains s₅) ∧
        (e = .rolledBack → ∀ d ∈ enabledDomains domains, ∃ s s', d.2.rollback (world d.1) ioOptions s = (.ok (), s')) := by
    intro hreports
    have hstatus : status ≠ none := hcommits.reports.2 (.inr hreports)
    obtain ⟨e, s₅, hroll, hall⟩ : ∃ e s₅, rollbackAll world message ioOptions domains s₄ = (.error e, s₅) ∧ _ := rollbackAll_raises s₄
    refine ⟨e, s₅, hroll, ?_, hall⟩
    have hinstall : (liveSeams base script world message ioOptions shell domains).install options parsed s₁ = (.error e, s₅) := by
      refine (Act.bind_of_ok hpre).trans ((Act.bind_of_ok (commitsTo_iff.2 ⟨steps, hcommits⟩)).trans
        ((Act.bind_of_ok hpost).trans (Act.bind_of_error ?_)))
      rw [Option.isSome_iff_ne_none.2 hstatus]
      exact Act.bind_of_error hroll
    exact ApplySeams.applyConfig_of_failsIn hplan (.installing hprepare hinstall)
  refine ⟨hfails, fun code s' hok hreports => ?_⟩
  obtain ⟨e, s₅, -, herror, -⟩ := hfails hreports
  rw [herror] at hok
  cases hok

end Run

/-! ## Two families -/

/-- Two families with what is rendered for each. -/
def twoRendered (render : Family → Rendered) : ApplySeams (List RollbackEvent) Rendered where
  applyDef _ := pure ()
  openScript := pure ()
  enter := pure { domains := [.ip, .ip6] }
  closeScripts := id
  runPlan _ := pure ExitCode.OK
  runHook _ := pure ()
  render domain := pure (render domain)
  commit _ _ := pure none
  closeRendered _ := id
  rollbackAll := pure ExitCode.OK
  emitShellConfirmation := pure ()
  confirmRules := pure true
  commitHistory := pure ()
  closeDomains := id

/-- A run for two families in a recorded world. -/
def twoLive (render : Family → Rendered) (env : Family → Invocation → Completed) : ApplySeams (List RollbackEvent) Rendered :=
  liveSeams (twoRendered render) (fun _ save => .ok save) (recording env) (fun text s => s ++ [.message text]) {} false twoFamilies

/-- The restore of `ip6` fails on the new save. -/
def rejecting : Family → Invocation → Completed
  | .ip6, .argv _ (some "new") => .returned 1 ""
  | _, _ => .returned 0 ""

/-- The new save of `ip6` is rejected after `ip` was committed: both are rolled back. -/
theorem rejected_rolls_back : ∃ e s₅,
    rollbackAll (recording rejecting) (fun text s => s ++ [.message text]) {} twoFamilies
        [.ran .ip (.argv ["/sbin/iptables-restore"] (some "new")), .ran .ip6 (.argv ["/sbin/ip6tables-restore"] (some "new")),
          .message "Failed to run /sbin/ip6tables-restore\n"] = (.error e, s₅) ∧
      (twoLive (fun _ => .save "new") rejecting).applyConfig {} [] [] = (.error e, s₅) ∧
      (e = .rolledBack → ∀ d ∈ enabledDomains twoFamilies, ∃ s s', d.2.rollback (recording rejecting d.1) {} s = (.ok (), s')) := by
  have hcommits : CommitsTo (twoLive (fun _ => .save "new") rejecting) [.ip, .ip6] none []
      [⟨.ip, .save "new", []⟩, ⟨.ip6, .save "new", [.ran .ip (.argv ["/sbin/iptables-restore"] (some "new"))]⟩] (some 1)
      [.ran .ip (.argv ["/sbin/iptables-restore"] (some "new")), .ran .ip6 (.argv ["/sbin/ip6tables-restore"] (some "new")),
        .message "Failed to run /sbin/ip6tables-restore\n"] := .cons rfl rfl (.cons rfl rfl .nil)
  have hreports : CommitStep.Reports (fun _ save => .ok save) (recording rejecting) {} false twoFamilies
      ⟨.ip6, .save "new", [.ran .ip (.argv ["/sbin/iptables-restore"] (some "new"))]⟩ := ⟨_, rfl, rfl, _, _, rfl⟩
  have hprepare : (twoLive (fun _ => .save "new") rejecting).prepare [] [] = (.ok { domains := [.ip, .ip6] }, []) := rfl
  exact (reported_failure_rolls_back rfl hprepare rfl hcommits rfl).1 ⟨_, List.mem_cons_of_mem _ List.mem_cons_self, hreports⟩

/-- A command that cannot be started ends the run after `ip` was committed: nothing is rolled back. -/
theorem unstarted_command_keeps_committed :
    ∃ log, (twoLive (fun domain => .commands [⟨"/sbin/" ++ domain.name ++ "tables -P INPUT DROP", true⟩]) (fun domain _ =>
        if domain = .ip6 then .failed "Permission denied" else .returned 0 "")).applyConfig {} [] [] = (.error (.exit ExitCode.ERROR), log) ∧
      .ran .ip (.argv ["/sbin/iptables", "-P", "INPUT", "DROP"] none) ∈ log ∧
      ∀ d ∈ enabledDomains twoFamilies, ∀ run ∈ d.2.restoreRuns {}, .ran d.1 run ∉ log := by
  refine ⟨[.ran .ip (.argv ["/sbin/iptables", "-P", "INPUT", "DROP"] none), .ran .ip6 (.argv ["/sbin/ip6tables", "-P", "INPUT", "DROP"] none),
    .message "failed to execute: Permission denied\n"], by decide, List.mem_cons_self, ?_⟩
  decide

end Ferm
