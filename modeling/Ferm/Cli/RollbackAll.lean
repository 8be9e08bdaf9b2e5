import Ferm.Cli.Seams
import Ferm.Iptables.Rollback

/-!
# Rolling every family back

After a failed commit, or one that is not confirmed, every enabled family is rolled back in turn. A restore that fails raises an
error, which ends the loop: the families after it are not reached.
-/

namespace Ferm

/-! ## Backends -/

/-- The tables of `ebtables`, in their fixed order. -/
def EB_TABLES : List String := ["filter", "nat", "broute"]

def TOOL_TABLES : String := "tables"

def TOOL_SAVE : String := "tables-save"

def TOOL_RESTORE : String := "tables-restore"

def TOOL_NFT : String := "nft"

/-- True for the two families of the internet protocol. -/
def Family.isIp : Family → Bool
  | ip => true
  | ip6 => true
  | arp => false
  | eb => false

/-- The way rulesets are installed. -/
inductive Backend where
  | iptables
  | nft
  deriving DecidableEq, Repr

/-- `tool_names`: the tools that are looked up for a family. -/
def Backend.toolNames : Backend → Family → List String
  | iptables, domain => if domain.isIp then [TOOL_TABLES, TOOL_SAVE, TOOL_RESTORE] else [TOOL_TABLES]
  | nft, _ => [TOOL_NFT]

/-- The state of one family that a rollback reads: the paths its tools were resolved to, the ruleset that was read before, the
names of the snapshot files of the bridge tables, and its tables. A live run of iptables reads the ruleset with the save tool. -/
structure LiveDomain (backend : Backend) (domain : Family) where
  enabled : Bool
  tool : String → String
  previous : Option String
  saved : backend = .iptables → previous ≠ none → TOOL_SAVE ∈ backend.toolNames domain
  ebtPrevious : String → String := id
  tables : Dict String TableInfo := Dict.empty

/-- The state of every family that a configuration names. -/
abbrev Domains (backend : Backend) : Type := (domain : Family) → Option (LiveDomain backend domain)

/-- A family with its state. -/
abbrev NamedDomain (backend : Backend) : Type := (domain : Family) × LiveDomain backend domain

/-- The families in the order of their names. -/
def SORTED_FAMILIES : List Family := [.arp, .eb, .ip, .ip6]

variable {backend : Backend} {σ : Type}

/-- `_enabled_domains`. -/
def enabledDomains (domains : Domains backend) : List (NamedDomain backend) :=
  SORTED_FAMILIES.filterMap fun domain => ((domains domain).filter fun info => info.enabled).map fun info => ⟨domain, info⟩

/-- `_ebt_atomic`. -/
def ebtAtomic (domainCmd ebTable name flag : String) : String :=
  domainCmd ++ " -t " ++ ebTable ++ " --atomic-file " ++ name ++ " " ++ flag

namespace LiveDomain

variable {domain : Family}

/-- The command that gives a bridge table its snapshot back. -/
def atomicCommit (info : LiveDomain backend domain) (ebTable : String) : String :=
  ebtAtomic (info.tool TOOL_TABLES) ebTable (info.ebtPrevious ebTable) "--atomic-commit"

/-- The command that deletes the table of `ferm`. -/
def deleteTable (info : LiveDomain backend domain) : String :=
  info.tool TOOL_NFT ++ " delete table " ++ domain.nftName ++ " " ++ NFT_TABLE_NAME

/-- `IptablesBackend.rollback`. -/
def iptablesRollback (world : World σ) (options : IoOptions) (info : LiveDomain .iptables domain) : Act σ Raised Unit :=
  if !info.enabled then pure ()
  else if domain = .eb then
    Act.each (fun ebTable => do
      let _ ← execute world options (info.atomicCommit ebTable)) EB_TABLES
  else if TOOL_RESTORE ∈ Backend.iptables.toolNames domain then
    restoreDomain world options (info.tool TOOL_RESTORE) (rollbackText info.tables info.previous)
  else
    Act.modify (world.message ("Cannot rollback domain '" ++ domain.name ++ "' because there is no " ++ domain.name ++
      TOOL_RESTORE ++ "\n"))

/-- `NftBackend.rollback`. -/
def nftRollback (world : World σ) (options : IoOptions) (info : LiveDomain .nft domain) : Act σ Raised Unit :=
  if !info.enabled then pure ()
  else if info.previous.getD "" ≠ "" then nftRestore world (info.tool TOOL_NFT) (info.previous.getD "")
  else do
    let _ ← execute world options info.deleteTable

/-- `Backend.rollback`. -/
def rollback (world : World σ) (options : IoOptions) (info : LiveDomain backend domain) : Act σ Raised Unit :=
  match backend, info with
  | .iptables, info => info.iptablesRollback world options
  | .nft, info => info.nftRollback world options

/-- A state of before that a rollback can bring back: the snapshots of the bridge tables, or the ruleset that was read. -/
def captured (info : LiveDomain backend domain) : Bool :=
  match backend with
  | .iptables => domain = .eb || info.previous.isSome
  | .nft => info.previous.getD "" ≠ ""

end LiveDomain

/-- `_rollback_all`. What a process gives can depend on the family whose rollback runs it. -/
def rollbackAll (world : Family → World σ) (message : String → σ → σ) (options : IoOptions) (domains : Domains backend) :
    Act σ Raised Int := do
  Act.each (fun d => d.2.rollback (world d.1) options) (enabledDomains domains)
  Act.modify (message "\nFirewall rules rolled back.\n")
  throw .rolledBack

/-! ## What is tried -/

/-- What happens while families are rolled back: a process is run for a family, a line is written, or a message. -/
inductive RollbackEvent where
  | ran (domain : Family) (invocation : Invocation)
  | line (text : String)
  | message (text : String)
  deriving DecidableEq, Repr

/-- The world whose processes give what `env` says; it keeps a record of what happens. -/
def recording (env : Family → Invocation → Completed) (domain : Family) : World (List RollbackEvent) where
  run invocation s := (env domain invocation, s ++ [.ran domain invocation])
  line text s := s ++ [.line text]
  message text s := s ++ [.message text]

namespace LiveDomain

variable {domain : Family}

/-- The processes of a restore. -/
def restoreRuns (options : IoOptions) (info : LiveDomain backend domain) : List Invocation :=
  match backend with
  | .iptables =>
    if domain = .eb then EB_TABLES.map fun ebTable => commandInvocation (info.atomicCommit ebTable)
    else if TOOL_RESTORE ∈ Backend.iptables.toolNames domain then
      [.argv (restoreArgs options (info.tool TOOL_RESTORE)) (some (rollbackText info.tables info.previous))]
    else []
  | .nft =>
    if info.previous.getD "" ≠ "" then
      [.argv [info.tool TOOL_NFT, "-c", "-f", "-"] (some (info.previous.getD "")),
        .argv [info.tool TOOL_NFT, "-f", "-"] (some (info.previous.getD ""))]
    else [commandInvocation info.deleteTable]

/-- True if the restore is done by commands, whose return codes a rollback does not look at. -/
def byCommands (info : LiveDomain backend domain) : Bool :=
  match backend with
  | .iptables => domain = .eb
  | .nft => info.previous.getD "" = ""

/-- The restore fails: one of its processes cannot be run or exits non-zero. -/
def restoreFails (env : Family → Invocation → Completed) (options : IoOptions) (info : LiveDomain backend domain) : Bool :=
  (info.restoreRuns options).any fun run => !(env domain run).ok

/-- The restore fails with an exception: of commands only one that cannot be run at all does. -/
def restoreRaises (env : Family → Invocation → Completed) (options : IoOptions) (info : LiveDomain backend domain) : Bool :=
  (info.restoreRuns options).any fun run => if info.byCommands then (env domain run).unrunnable else !(env domain run).ok

end LiveDomain

/-- A part of a family's rollback in a recorded world. It raises or not, its first process is run, and it runs processes for this
family only. An exception it raises ends the program with the status of an error. -/
structure Tries {α : Type} (domain : Family) (raises : Bool) (runs : List Invocation) (r : Except Raised α)
    (log : List RollbackEvent) : Prop where
  raises : Act.isError r = raises
  status : ∀ e, r = .error e → exitStatus (.error e) = ExitCode.ERROR
  first : ∀ run ∈ runs.head?, .ran domain run ∈ log
  own : ∀ domain' run, .ran domain' run ∈ log → domain' = domain

section

variable {α : Type} {domain : Family} {env : Family → Invocation → Completed} {options : IoOptions}

theorem run_logs (env : Family → Invocation → Completed) (domain : Family) (run : Invocation) :
    Act.Logs (Act.ofState ((recording env domain).run run) : Act _ Raised Completed) (.ok (env domain run))
      [.ran domain run] := fun _ => rfl

theorem message_logs (env : Family → Invocation → Completed) (domain : Family) (text : String) :
    Act.Logs (Act.modify ((recording env domain).message text) : Act _ Raised Unit) (.ok ()) [.message text] := fun _ => rfl

/-- The process of a command is run; it raises when it cannot be. -/
theorem runCommand_tries (env : Family → Invocation → Completed) (domain : Family) (command : String) :
    ∃ r log, Act.Logs (runCommand (recording env domain) command) r (.ran domain (commandInvocation command) :: log) ∧
      (∀ ev ∈ log, ∃ text, ev = .message text) ∧ Act.isError r = (env domain (commandInvocation command)).unrunnable ∧
      ∀ e, r = .error e → exitStatus (.error e) = ExitCode.ERROR := by
  have hrun := run_logs env domain (commandInvocation command)
  unfold runCommand
  cases henv : env domain (commandInvocation command) with
  | failed reason =>
    rw [henv] at hrun
    refine ⟨.error (.exit ExitCode.ERROR), [.message _],
      hrun.bind ((message_logs env domain _).bind fun s => ?_), ?_, rfl, fun e he => by cases he; rfl⟩
    · rw [Act.throw_apply, List.append_nil]
    · intro ev hev
      exact ⟨_, List.mem_singleton.1 hev⟩
  | returned code stderr =>
    rw [henv] at hrun
    by_cases hzero : code = 0
    · exact ⟨.ok none, [], hrun.bind fun s => by simp [hzero], fun _ h => absurd h List.not_mem_nil, rfl,
        fun e he => (by cases he)⟩
    · by_cases hneg : code < 0
      · refine ⟨.ok (some 1), [.message ("child died with signal " ++ toString (-code) ++ "\n")],
          hrun.bind fun s => ?_, fun ev hev => ⟨_, List.mem_singleton.1 hev⟩, rfl, fun e he => (by cases he)⟩
        simp only [if_neg hzero, if_pos hneg]
        rfl
      · exact ⟨.ok (some code), [], hrun.bind fun s => by simp [hzero, hneg], fun _ h => absurd h List.not_mem_nil, rfl,
          fun e he => (by cases he)⟩

/-- A command is written to the script, if lines are, and run. -/
theorem execute_tries (env : Family → Invocation → Completed) (domain : Family) (hexec : options.noexec = false) (command : String) :
    ∃ r log, Act.Logs (execute (recording env domain) options command) r log ∧
      Tries domain (env domain (commandInvocation command)).unrunnable [commandInvocation command] r log := by
  obtain ⟨r, log, hlogs, hmessages, hraises, hstatus⟩ := runCommand_tries env domain command
  have htries : ∀ before : List RollbackEvent, (∀ domain' run, .ran domain' run ∉ before) →
      Tries domain (env domain (commandInvocation command)).unrunnable [commandInvocation command] r
        (before ++ .ran domain (commandInvocation command) :: log) := by
    intro before hbefore
    refine ⟨hraises, hstatus, fun run hr => ?_, fun domain' run hr => ?_⟩
    · cases hr
      exact List.mem_append_right _ List.mem_cons_self
    · rcases List.mem_append.1 hr with hr | hr
      · exact absurd hr (hbefore domain' run)
      · rcases List.mem_cons.1 hr with hr | hr
        · cases hr
          rfl
        · obtain ⟨text, htext⟩ := hmessages _ hr
          cases htext
  unfold execute
  rw [hexec]
  cases options.lines with
  | false => exact ⟨r, _, hlogs, htries [] fun _ _ => List.not_mem_nil⟩
  | true =>
    refine ⟨r, [.line (command ++ "\n")] ++ .ran domain (commandInvocation command) :: log, fun s => ?_,
      htries _ fun domain' run h => ?_⟩
    · change runCommand (recording env domain) command (s ++ [.line (command ++ "\n")]) = _
      rw [hlogs, List.append_assoc]
    · cases List.mem_singleton.1 h

/-- A save is piped to a process; that raises when it fails. -/
theorem pipeSave_tries (env : Family → Invocation → Completed) (domain : Family) (args : List String) (save path : String) (detail : String → String) :
    ∃ r, Act.Logs (pipeSave (recording env domain) args save path detail) r [.ran domain (.argv args (some save))] ∧
      Tries domain (!(env domain (.argv args (some save))).ok) [.argv args (some save)] r
        [.ran domain (.argv args (some save))] := by
  have hown : ∀ (domain' : Family) (run : Invocation),
      RollbackEvent.ran domain' run ∈ [RollbackEvent.ran domain (.argv args (some save))] → domain' = domain := by
    intro domain' run h
    cases List.mem_singleton.1 h
    rfl
  have hrun := run_logs env domain (.argv args (some save))
  unfold pipeSave
  cases henv : env domain (.argv args (some save)) with
  | failed reason =>
    rw [henv] at hrun
    exact ⟨.error (.ferm (runFailed path reason)), hrun.bind fun s => by simp, rfl, fun e he => (by cases he; rfl),
      fun run hr => by cases hr; exact List.mem_cons_self, hown⟩
  | returned code stderr =>
    rw [henv] at hrun
    by_cases hcode : code = 0
    · exact ⟨.ok (), hrun.bind fun s => by simp [hcode], by simp [Act.isError, Completed.ok, hcode],
        fun e he => (by cases he), fun run hr => by cases hr; exact List.mem_cons_self, hown⟩
    · exact ⟨.error (.ferm (detail stderr)), hrun.bind fun s => by simp [hcode], by simp [Act.isError, Completed.ok, hcode],
        fun e he => (by cases he; rfl), fun run hr => by cases hr; exact List.mem_cons_self, hown⟩

/-- An action whose value is left out. -/
theorem discard_logs {x : Act (List RollbackEvent) Raised α} {r : Except Raised α} {log : List RollbackEvent}
    (h : Act.Logs x r log) : Act.Logs (do let _ ← x) (r.map fun _ => ()) log := by
  cases r with
  | error e => exact h.bind_error
  | ok a =>
    have := h.bind (f := fun _ => pure ()) (Act.Logs.pure (τ := RollbackEvent) (ε := Raised) ())
    rwa [List.append_nil] at this

theorem Tries.discard {raises : Bool} {runs : List Invocation} {r : Except Raised α} {log : List RollbackEvent}
    (h : Tries domain raises runs r log) : Tries domain raises runs (r.map fun _ => ()) log := by
  cases r with
  | error e => exact ⟨h.raises, fun e' he' => by cases he'; exact h.status e rfl, h.first, h.own⟩
  | ok a => exact ⟨h.raises, fun e he => (by cases he), h.first, h.own⟩

/-- Commands are run until one of them cannot be. -/
theorem each_tries (hexec : options.noexec = false) (command : String → String) (names : List String) :
    ∃ r log, Act.Logs (Act.each (fun name => do let _ ← execute (recording env domain) options (command name)) names) r log ∧
      Tries domain ((names.map fun name => commandInvocation (command name)).any fun run => (env domain run).unrunnable)
        (names.map fun name => commandInvocation (command name)) r log := by
  have hone := fun name => execute_tries env domain hexec (command name)
  choose r log hlogs htries using hone
  refine ⟨_, _, Act.Logs.each names fun name _ => discard_logs (hlogs name), ?_, fun e he => ?_, fun run hrun => ?_,
    fun domain' run hmem => ?_⟩
  · rw [Act.isError_firstError, List.any_map]
    congr 1
    funext name
    exact (htries name).discard.raises
  · obtain ⟨name, -, hname⟩ := Act.exists_of_firstError he
    exact (htries name).discard.status e hname
  · cases names with
    | nil => cases hrun
    | cons name names =>
      cases hrun
      refine List.mem_flatMap.2 ⟨name, ?_, (htries name).first _ rfl⟩
      exact Act.mem_takeThrough.2 ⟨[], names, rfl, fun _ h => absurd h List.not_mem_nil⟩
  · obtain ⟨name, -, hname⟩ := List.mem_flatMap.1 hmem
    exact (htries name).own domain' run hname

/-- Two saves are piped to two processes; the second is run when the first succeeds. -/
theorem Tries.andThen {raises raises' : Bool} {run : Invocation} {runs' : List Invocation} {r r' : Except Raised Unit}
    {log log' : List RollbackEvent} {x y : Act (List RollbackEvent) Raised Unit} (hx : Act.Logs x r log)
    (h : Tries domain raises [run] r log) (hy : Act.Logs y r' log') (h' : Tries domain raises' runs' r' log') :
    ∃ r'' log'', Act.Logs (do x; y) r'' log'' ∧ Tries domain (raises || raises') (run :: runs') r'' log'' := by
  cases r with
  | error e =>
    refine ⟨.error e, log, hx.bind_error, ?_, fun e' he' => ?_, h.first, h.own⟩
    · rw [← h.raises]
      rfl
    · cases he'
      exact h.status e rfl
  | ok u =>
    refine ⟨r', log ++ log', hx.bind hy, ?_, h'.status, fun run' hr => List.mem_append_left _ (h.first run' hr),
      fun domain' run' hr => ?_⟩
    · rw [← h.raises, ← h'.raises]
      rfl
    · rcases List.mem_append.1 hr with hr | hr
      · exact h.own domain' run' hr
      · exact h'.own domain' run' hr

/-- The rollback of an enabled family tries its restore. -/
theorem rollback_tries (env : Family → Invocation → Completed) (hexec : options.noexec = false) (info : LiveDomain backend domain) (henabled : info.enabled = true) :
    ∃ r log, Act.Logs (info.rollback (recording env domain) options) r log ∧
      Tries domain (info.restoreRaises env options) (info.restoreRuns options) r log := by
  cases backend with
  | iptables =>
    simp only [LiveDomain.rollback, LiveDomain.iptablesRollback, LiveDomain.restoreRaises, LiveDomain.restoreRuns,
      LiveDomain.byCommands, henabled, Bool.not_true, Bool.false_eq_true, if_false]
    by_cases heb : domain = .eb
    · simp only [heb, decide_true, if_true]
      exact each_tries hexec _ EB_TABLES
    · simp only [heb, decide_false, Bool.false_eq_true, if_false]
      by_cases hrestore : TOOL_RESTORE ∈ Backend.iptables.toolNames domain
      · simp only [if_pos hrestore, List.any_cons, List.any_nil, Bool.or_false]
        obtain ⟨r, hlogs, htries⟩ := pipeSave_tries env domain
          (restoreArgs options (info.tool TOOL_RESTORE)) (rollbackText info.tables info.previous) (info.tool TOOL_RESTORE)
          fun _ => "Failed to run " ++ info.tool TOOL_RESTORE
        exact ⟨r, _, hlogs, htries⟩
      · simp only [if_neg hrestore]
        exact ⟨_, _, message_logs env domain _, rfl, fun e he => (by cases he), fun _ h => (by cases h),
          fun domain' run h => by cases List.mem_singleton.1 h⟩
  | nft =>
    simp only [LiveDomain.rollback, LiveDomain.nftRollback, LiveDomain.restoreRaises, LiveDomain.restoreRuns,
      LiveDomain.byCommands, henabled, Bool.not_true, Bool.false_eq_true, if_false]
    by_cases hprevious : info.previous.getD "" = ""
    · simp only [hprevious, ne_eq, not_true_eq_false, if_false, decide_true, if_true, List.any_cons, List.any_nil,
        Bool.or_false]
      obtain ⟨r, log, hlogs, htries⟩ := execute_tries env domain hexec info.deleteTable
      exact ⟨_, _, discard_logs hlogs, htries.discard⟩
    · simp only [hprevious, ne_eq, not_false_eq_true, if_true, decide_false, Bool.false_eq_true, if_false, List.any_cons,
        List.any_nil, Bool.or_false]
      obtain ⟨r, hlogs, htries⟩ := pipeSave_tries env domain [info.tool TOOL_NFT, "-c", "-f", "-"]
        (info.previous.getD "") (info.tool TOOL_NFT) fun stderr =>
          let detail := String.ofList (pyStrip stderr.toList)
          if detail = "" then "Failed to run " ++ info.tool TOOL_NFT ++ " -c" else detail
      obtain ⟨r', hlogs', htries'⟩ := pipeSave_tries env domain [info.tool TOOL_NFT, "-f", "-"]
        (info.previous.getD "") (info.tool TOOL_NFT) fun _ => "Failed to run " ++ info.tool TOOL_NFT
      exact htries.andThen hlogs hlogs' htries'

/-- A family with a captured state has a restore to try. -/
theorem restoreRuns_ne_nil (options : IoOptions) (info : LiveDomain backend domain) (h : info.captured = true) :
    ∃ run, run ∈ (info.restoreRuns options).head? := by
  cases backend with
  | iptables =>
    simp only [LiveDomain.captured, Bool.or_eq_true, decide_eq_true_eq, Option.isSome_iff_ne_none] at h
    simp only [LiveDomain.restoreRuns]
    by_cases heb : domain = .eb
    · rw [if_pos heb]
      exact ⟨_, rfl⟩
    · have hsave := info.saved rfl (h.resolve_left heb)
      have hrestore : TOOL_RESTORE ∈ Backend.iptables.toolNames domain := by
        revert hsave
        cases domain <;> decide
      rw [if_neg heb, if_pos hrestore]
      exact ⟨_, rfl⟩
  | nft =>
    simp only [LiveDomain.restoreRuns]
    split
    · exact ⟨_, rfl⟩
    · exact ⟨_, rfl⟩

end

/-! ## Which families are reached -/

theorem mem_enabledDomains {domains : Domains backend} {d : NamedDomain backend} :
    d ∈ enabledDomains domains ↔ domains d.1 = some d.2 ∧ d.2.enabled = true := by
  obtain ⟨domain, info⟩ := d
  simp only [enabledDomains, List.mem_filterMap, Option.map_eq_some_iff, Option.filter_eq_some_iff, Sigma.mk.injEq]
  constructor
  · rintro ⟨_, -, info', ⟨hinfo, henabled⟩, rfl, hsame⟩
    cases hsame
    exact ⟨hinfo, henabled⟩
  · rintro ⟨hinfo, henabled⟩
    exact ⟨domain, by cases domain <;> decide, info, ⟨hinfo, henabled⟩, rfl, HEq.rfl⟩

theorem nodup_enabledDomains (domains : Domains backend) : (enabledDomains domains).Nodup := by
  refine List.Nodup.filterMap (fun domain domain' d hd hd' => ?_) (by decide : SORTED_FAMILIES.Nodup)
  obtain ⟨info, -, rfl⟩ := Option.map_eq_some_iff.1 hd
  obtain ⟨info', -, hsame⟩ := Option.map_eq_some_iff.1 hd'
  exact (Sigma.mk.inj hsame).1.symm

/-- A process of a family's rollback was run. -/
def Attempted (domain : Family) (log : List RollbackEvent) : Prop := ∃ run, .ran domain run ∈ log

/-- The rollback reaches every family whose captured state it can bring back, and the program ends with an error. -/
structure ReachesEvery (env : Family → Invocation → Completed) (options : IoOptions) (domains : Domains backend)
    (outcome : Except Raised Int × List RollbackEvent) : Prop where
  attempted : ∀ domain info, domains domain = some info → info.enabled = true → info.captured = true →
    info.restoreFails env options = false → Attempted domain outcome.2
  failed : exitStatus outcome.1 ≠ ExitCode.OK

/-- The rollback of all families in a recorded world, from an empty record. -/
def recordedRollback (env : Family → Invocation → Completed) (options : IoOptions) (domains : Domains backend) :
    Except Raised Int × List RollbackEvent :=
  rollbackAll (recording env) (fun text s => s ++ [.message text]) options domains []

/-- Every family up to the first that raises is tried, and no other. The program ends with an error. -/
theorem recordedRollback_spec (env : Family → Invocation → Completed) {options : IoOptions} (hexec : options.noexec = false)
    (domains : Domains backend) :
    exitStatus (recordedRollback env options domains).1 = ExitCode.ERROR ∧
      ∀ d ∈ enabledDomains domains, d.2.captured = true → (Attempted d.1 (recordedRollback env options domains).2 ↔
        d ∈ Act.takeThrough (fun d => d.2.restoreRaises env options) (enabledDomains domains)) := by
  have hone : ∀ d : NamedDomain backend, ∃ r log, d.2.enabled = true →
      Act.Logs (d.2.rollback (recording env d.1) options) r log ∧
        Tries d.1 (d.2.restoreRaises env options) (d.2.restoreRuns options) r log := by
    intro d
    by_cases henabled : d.2.enabled = true
    · obtain ⟨r, log, h⟩ := rollback_tries env hexec d.2 henabled
      exact ⟨r, log, fun _ => h⟩
    · exact ⟨.ok (), [], fun h => absurd h henabled⟩
  choose r log hspec using hone
  have hmem : ∀ d ∈ enabledDomains domains, d.2.enabled = true := fun d hd => (mem_enabledDomains.1 hd).2
  have hloop := Act.Logs.each (enabledDomains domains) fun d hd => (hspec d (hmem d hd)).1
  have hraises : ∀ d ∈ enabledDomains domains, Act.isError (r d) = d.2.restoreRaises env options :=
    fun d hd => (hspec d (hmem d hd)).2.raises
  rw [Act.takeThrough_congr hraises] at hloop
  generalize htaken : Act.takeThrough (fun d => d.2.restoreRaises env options) (enabledDomains domains) = taken at hloop
  have htakenMem : ∀ d ∈ taken, d ∈ enabledDomains domains := by
    intro d hd
    rw [← htaken] at hd
    obtain ⟨before, after, hdomains, -⟩ := Act.mem_takeThrough.1 hd
    rw [hdomains]
    exact List.mem_append_right _ List.mem_cons_self
  -- what the loop has written, and after it the closing message
  have hrun : exitStatus (recordedRollback env options domains).1 = ExitCode.ERROR ∧
      ∀ domain run, .ran domain run ∈ (recordedRollback env options domains).2 ↔ .ran domain run ∈ taken.flatMap log := by
    cases hfirst : Act.firstError r (enabledDomains domains) with
    | error e =>
      rw [hfirst] at hloop
      have hall : recordedRollback env options domains = (.error e, [] ++ taken.flatMap log) := Act.bind_of_error (hloop [])
      obtain ⟨d, hd, hde⟩ := Act.exists_of_firstError hfirst
      rw [hall]
      exact ⟨(hspec d (hmem d hd)).2.status e hde, fun domain run => by simp⟩
    | ok u =>
      rw [hfirst] at hloop
      have hall : recordedRollback env options domains =
          (.error .rolledBack, [] ++ taken.flatMap log ++ [.message "\nFirewall rules rolled back.\n"]) :=
        Act.bind_of_ok (hloop [])
      rw [hall]
      exact ⟨rfl, fun domain run => by simp⟩
  refine ⟨hrun.1, fun d hd hcaptured => ?_⟩
  simp only [Attempted, hrun.2, List.mem_flatMap]
  constructor
  · rintro ⟨run, d', hd', hmem'⟩
    have hd'' := htakenMem d' hd'
    have hsame := (hspec d' (hmem d' hd'')).2.own _ _ hmem'
    obtain ⟨domain, info⟩ := d
    obtain ⟨domain', info'⟩ := d'
    cases hsame
    have hinfo := (mem_enabledDomains.1 hd).1.symm.trans (mem_enabledDomains.1 hd'').1
    cases hinfo
    exact hd'
  · intro hd'
    obtain ⟨run, hrun⟩ := restoreRuns_ne_nil options d.2 hcaptured
    exact ⟨run, d, hd', (hspec d (hmem d hd)).2.first run hrun⟩

/-- A rollback reaches every family exactly when no family that raises stands before one whose captured state it could bring
back. -/
theorem rollbackAll_reaches_iff (env : Family → Invocation → Completed) (options : IoOptions)
    (hexec : options.noexec = false) (domains : Domains backend) :
    ReachesEvery env options domains (recordedRollback env options domains) ↔
      (enabledDomains domains).Pairwise fun d d' => d.2.restoreRaises env options = true →
        ¬ (d'.2.captured = true ∧ d'.2.restoreFails env options = false) := by
  obtain ⟨hstatus, hattempted⟩ := recordedRollback_spec env hexec domains
  rw [← Act.forall_mem_takeThrough_iff (nodup_enabledDomains domains)]
  constructor
  · rintro ⟨h, -⟩ d hd ⟨hcaptured, hfails⟩
    obtain ⟨hinfo, henabled⟩ := mem_enabledDomains.1 hd
    exact (hattempted d hd hcaptured).1 (h d.1 d.2 hinfo henabled hcaptured hfails)
  · intro h
    refine ⟨fun domain info hinfo henabled hcaptured hfails => ?_, by rw [hstatus]; decide⟩
    have hd : (⟨domain, info⟩ : NamedDomain backend) ∈ enabledDomains domains := mem_enabledDomains.2 ⟨hinfo, henabled⟩
    exact (hattempted _ hd hcaptured).2 (h _ hd ⟨hcaptured, hfails⟩)

/-- The two families of the internet protocol, enabled and with an empty ruleset before. -/
def twoFamilies : Domains .iptables := fun domain =>
  if h : domain.isIp = true then
    some { enabled := true, tool := fun name => "/sbin/" ++ domain.name ++ name, previous := some "",
           saved := fun _ _ => by rw [Backend.toolNames, if_pos h]; decide }
  else none

/-- The restore of the last family fails: the one before it is restored. -/
theorem twoFamilies_reached :
    ReachesEvery (fun domain _ => .returned (if domain = .ip6 then 1 else 0) "") {} twoFamilies
      (recordedRollback (fun domain _ => .returned (if domain = .ip6 then 1 else 0) "") {} twoFamilies) :=
  (rollbackAll_reaches_iff _ {} rfl twoFamilies).2 (by decide)

/-- The restore of `ip` exits with 1: that of `ip6` is not tried. -/
theorem rollbackAll_stops :
    ∃ (env : Family → Invocation → Completed) (domains : Domains .iptables),
      ¬ ReachesEvery env {} domains (recordedRollback env {} domains) := by
  refine ⟨fun domain _ => .returned (if domain = .ip then 1 else 0) "", twoFamilies, fun h => ?_⟩
  obtain ⟨run, hrun⟩ := h.attempted .ip6 _ rfl rfl rfl rfl
  have hlog : (recordedRollback (fun domain _ => .returned (if domain = .ip then 1 else 0) "") {} twoFamilies).2 =
      [.ran .ip (.argv ["/sbin/iptables-restore"] (some ""))] := by decide
  rw [hlog] at hrun
  simp at hrun

end Ferm
