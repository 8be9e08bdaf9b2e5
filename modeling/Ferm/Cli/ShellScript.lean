import Ferm.Cli.Seams
import Ferm.Iptables.Save
import Ferm.Lib.HereDocument

/-!
# Shell scripts of rulesets

With `--shell` a commit writes its text into the script as a here-document, instead of (or besides) piping it to the tool. A shell
that runs the script gives the tool the text as it is exactly when a here-document gives the text back.
-/

namespace Ferm

/-! ## Running the script -/

/-- What a commit leaves: the chunks of the script, and what was piped to processes. -/
structure ShellRecord where
  script : List String := []
  inputs : List String := []

/-- A world where every process ends the same way. -/
def shellWorld (completed : Completed) : World ShellRecord where
  run invocation r :=
    match invocation with
    | .argv _ (some input) => (completed, { r with inputs := r.inputs ++ [input] })
    | _ => (completed, r)
  line text r := { r with script := r.script ++ [text] }
  message _ r := r

/-- What a shell gives to the command of the script's first chunk, in front of what else the script holds. -/
def scriptInput (expand : ShExpand) (script : List String) (after : List Char) : List Char :=
  hereDocument expand "EOT".toList ((String.join script.tail).toList ++ after)

/-- A commit, by its options and by whether it is for a shell, is faithful: whatever expansions stand for and whatever follows in the
script, the shell gives the tool what a direct run pipes to it. -/
def ScriptFaithful (commit : World ShellRecord → IoOptions → Bool → Act ShellRecord Raised (Option Int)) : Prop :=
  ∀ completed noflush expand after,
    ∀ input ∈ (commit (shellWorld completed) { noflush } false {}).2.inputs,
      scriptInput expand (commit (shellWorld completed) { noflush, lines := true, noexec := true } true {}).2.script after =
        input.toList

/-! ## Faithful scripts -/

theorem inputs_restoreStatus (completed : Completed) (restore : Act ShellRecord Raised Unit) (r : ShellRecord) :
    (restoreStatus (shellWorld completed) restore r).2.inputs = (restore r).2.inputs := by
  rcases hrestore : restore r with ⟨e | u, r'⟩
  · have hbind : (restore >>= fun _ => pure (none : Option Int)) r = (.error e, r') := Act.bind_of_error hrestore
    rw [restoreStatus, Act.tryCatch_of_error hbind]
    cases e <;> rfl
  · have hbind : (restore >>= fun _ => pure (none : Option Int)) r = (.ok none, r') := Act.bind_of_ok hrestore
    rw [restoreStatus, Act.tryCatch_of_ok hbind]

/-- A pipe gives a process its text, whatever becomes of the process. -/
theorem inputs_pipeSave (completed : Completed) (args : List String) (save path : String) (detail : String → String) (r : ShellRecord) :
    (pipeSave (shellWorld completed) args save path detail r).2.inputs = r.inputs ++ [save] := by
  have hrun : (Act.ofState ((shellWorld completed).run (.argv args (some save))) : Act ShellRecord Raised Completed) r =
      (.ok completed, { r with inputs := r.inputs ++ [save] }) := rfl
  rw [pipeSave, Act.bind_of_ok hrun]
  cases completed with
  | failed reason => rfl
  | returned code stderr =>
    simp only
    split <;> rfl

theorem inputs_commitFast (completed : Completed) (noflush : Bool) (path save : String) :
    (commitFast (shellWorld completed) { noflush } false path save {}).2.inputs = [save] := by
  have hemit : commitFast (shellWorld completed) { noflush } false path save {} =
      restoreStatus (shellWorld completed) (restoreDomain (shellWorld completed) { noflush } path save) {} := rfl
  rw [hemit, inputs_restoreStatus, restoreDomain, inputs_pipeSave]
  rfl

/-- The text is checked, and perhaps it is installed. -/
theorem inputs_nftRestore (completed : Completed) (path save : String) :
    (nftRestore (shellWorld completed) path save {}).2.inputs = [save] ∨
      (nftRestore (shellWorld completed) path save {}).2.inputs = [save, save] := by
  have hcheck : (nftCheckSave (shellWorld completed) path save {}).2.inputs = [save] := inputs_pipeSave ..
  rcases hrun : nftCheckSave (shellWorld completed) path save {} with ⟨e | u, r⟩
  · rw [nftRestore, Act.bind_of_error hrun]
    rw [hrun] at hcheck
    exact .inl hcheck
  · rw [nftRestore, Act.bind_of_ok hrun, inputs_pipeSave]
    rw [hrun] at hcheck
    exact .inr (congrArg (· ++ [save]) hcheck)

/-- The chunks of a here-document behind the command's line. -/
theorem scriptInput_eq (expand : ShExpand) (command text : String) (after : List Char) :
    scriptInput expand [command, text, "EOT\n"] after =
      hereDocument expand "EOT".toList (text.toList ++ "EOT".toList ++ '\n' :: after) := by
  rw [scriptInput]
  simp

/-- A here-document with the delimiter `EOT`. -/
theorem hereDocument_eot_iff (text : List Char) :
    (∀ expand after, hereDocument expand "EOT".toList (text ++ "EOT".toList ++ '\n' :: after) = text) ↔ HereSafe "EOT".toList text :=
  @hereDocument_eq_iff ['E', 'O'] 'T' (by decide) (by decide) (by decide) text

/-- A commit that writes its text as a here-document and pipes it otherwise. -/
theorem scriptFaithful_iff {commit : World ShellRecord → IoOptions → Bool → Act ShellRecord Raised (Option Int)} {text : String}
    (command : Bool → String)
    (hinputs : ∀ completed noflush, (commit (shellWorld completed) { noflush } false {}).2.inputs = [text] ∨
      (commit (shellWorld completed) { noflush } false {}).2.inputs = [text, text])
    (hscript : ∀ completed noflush, (commit (shellWorld completed) { noflush, lines := true, noexec := true } true {}).2.script =
      [command noflush, text, "EOT\n"]) :
    ScriptFaithful commit ↔ HereSafe "EOT".toList text.toList := by
  rw [← hereDocument_eot_iff]
  constructor
  · intro h expand after
    have hmem : text ∈ (commit (shellWorld (.returned 0 "")) {} false {}).2.inputs := by
      rcases hinputs (.returned 0 "") false with hinput | hinput <;> rw [hinput] <;> exact List.mem_cons_self
    have hinput := h (.returned 0 "") false expand after text hmem
    rwa [hscript, scriptInput_eq] at hinput
  · intro h completed noflush expand after input hmem
    have hinput : input = text := by
      rcases hinputs completed noflush with heq | heq <;> rw [heq] at hmem <;> simpa using hmem
    rw [hscript, scriptInput_eq, hinput, h]

theorem commitFast_faithful_iff (path save : String) :
    (ScriptFaithful fun world options shell => commitFast world options shell path save) ↔ HereSafe "EOT".toList save.toList := by
  refine scriptFaithful_iff (fun noflush => (if noflush then path ++ " --noflush" else path) ++ " <<EOT\n") (fun completed noflush => ?_)
    fun completed noflush => rfl
  exact .inl (inputs_commitFast completed noflush path save)

theorem commitNft_faithful_iff (tool applyText : String) :
    (ScriptFaithful fun world options shell => commitNft world options shell tool applyText) ↔
      HereSafe "EOT".toList applyText.toList := by
  by_cases hempty : applyText = ""
  · subst hempty
    exact iff_of_true (fun completed noflush expand after input hinput => by cases hinput) (by decide)
  · refine scriptFaithful_iff (fun _ => tool ++ " -f -" ++ " <<EOT\n") (fun completed noflush => ?_) fun completed noflush => ?_
    · have hcommit : commitNft (shellWorld completed) { noflush } false tool applyText {} =
          restoreStatus (shellWorld completed) (nftRestore (shellWorld completed) tool applyText) {} := by
        rw [commitNft, if_neg hempty]
        rfl
      rw [hcommit, inputs_restoreStatus]
      exact inputs_nftRestore completed tool applyText
    · rw [commitNft, if_neg hempty]
      rfl

theorem toList_saveText (entries : List SaveEntry) :
    (saveText entries).toList = entries.flatMap fun e => e.text.toList ++ ['\n'] := by
  rw [saveText]
  induction entries with
  | nil => rfl
  | cons e entries ih => rw [List.map_cons, String.join_cons, String.toList_append, ih, String.toList_append]; rfl

/-- The rulesets of a family rendered as a save, and committed; an error of the rendering ends the run. -/
def renderAndCommit {σ : Type} (world : World σ) (options : IoOptions) (shell : Bool) (path : String)
    (rendered : Except FermError (List SaveEntry)) : Act σ Raised (Option Int) :=
  match rendered with
  | .error e => throw (.ferm e.message)
  | .ok entries => commitFast world options shell path (saveText entries)

theorem renderAndCommit_faithful_iff (path : String) (rendered : Except FermError (List SaveEntry)) :
    (ScriptFaithful fun world options shell => renderAndCommit world options shell path rendered) ↔
      ∀ entries, rendered = .ok entries → ∀ e ∈ entries, HereSafe "EOT".toList (e.text.toList ++ ['\n']) := by
  cases rendered with
  | error e => exact iff_of_true (fun completed noflush expand after input hinput => by cases hinput) fun entries h => by cases h
  | ok entries =>
    have hcommit := commitFast_faithful_iff path (saveText entries)
    rw [toList_saveText, hereSafe_flatMap_iff] at hcommit
    refine hcommit.trans ⟨fun h entries' heq => ?_, fun h => h entries rfl⟩
    obtain rfl := Except.ok.inj heq
    exact h

/-- The script of an iptables ruleset is faithful exactly when every line of its save is safe, and the script of the nft backend
exactly when the text that is applied is. -/
theorem shell_script_faithful_iff (domain : Family) (info : DomainInfo) (options : IptablesOptions) (version now path tool : String)
    (applyText : String) :
    ((ScriptFaithful fun world io shell => renderAndCommit world io shell path (rulesToSave domain info options version now)) ↔
        ∀ entries, rulesToSave domain info options version now = .ok entries →
          ∀ e ∈ entries, HereSafe "EOT".toList (e.text.toList ++ ['\n'])) ∧
      ((ScriptFaithful fun world io shell => commitNft world io shell tool applyText) ↔ HereSafe "EOT".toList applyText.toList) :=
  ⟨renderAndCommit_faithful_iff path _, commitNft_faithful_iff tool applyText⟩

/-- A comment with a dollar sign: the shell puts in what stands behind it. -/
theorem shell_script_expands_comment :
    ∃ (rule : RenderedRule) (entries : List SaveEntry),
      rulesToSave .ip
        { tables := Dict.empty.set "filter"
            { hasBuiltin := true, chains := Dict.empty.set "INPUT" { builtin := true, policy := some "DROP", rules := [rule] } } }
        {} "2.7" "now" = .ok entries ∧
      ¬ ScriptFaithful fun world io shell => renderAndCommit world io shell "iptables-restore" (.ok entries) := by
  refine ⟨⟨[⟨"comment", .scalar "costs $HOME"⟩, ⟨"jump", .scalar "ACCEPT"⟩]⟩, _, rfl, fun h => ?_⟩
  have hsafe := (renderAndCommit_faithful_iff _ _).1 h _ rfl (.rule "INPUT" " --comment \"costs $HOME\" --jump ACCEPT") (by decide)
  exact absurd hsafe (by decide)

end Ferm
