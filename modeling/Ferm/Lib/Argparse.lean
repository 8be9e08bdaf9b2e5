import Ferm.Lib.Text

/-!
# Command lines

How `argparse` reads a command line without abbreviations: which argument is an option, which is the operand of the option before,
and which one stands for itself. Every argument has a role. `--` ends the options: what follows stands for itself.
-/

namespace Ferm.Argparse

/-- How many operands an option takes. -/
inductive Nargs where
  | zero
  | one
  | optional
  deriving DecidableEq, Repr

/-- An option: its spellings, what it sets, and which operands it accepts. Some options end the program at once. -/
structure Action where
  strings : List String
  dest : String
  nargs : Nargs := .zero
  accepts : String → Bool := fun _ => true
  exits : Bool := false

/-- A parser: its options, whether it takes any number of arguments that are not options or at most one, and the sets of options
of which only one may be there. -/
structure Parser where
  actions : List Action
  anyPositionals : Bool
  exclusive : List (List String) := []

/-- The text behind an option in the same argument, and whether `=` is between them. -/
structure Explicit where
  sep : Bool
  text : List Char

/-- What an argument before `--` looks like. -/
inductive Reading where
  | argument
  | option (action : Action) (name : String) (explicit : Option Explicit)
  | unknown

/-- The role of an argument. -/
inductive Role where
  | option
  | attached (dest : String) (text : List Char)
  | operand (dest : String)
  | positional
  | separator
  deriving DecidableEq, Repr

namespace Parser

/-- The option that is spelled so. -/
def lookup (p : Parser) (name : String) : Option Action := p.actions.find? fun action => action.strings.contains name

/-- `_get_option_tuples`: the one-letter option an argument begins with, and the options it is the beginning of. -/
def getOptionTuples (p : Parser) (arg : String) : List (Action × String × Option Explicit) :=
  match arg.toList with
  | '-' :: '-' :: _ => []
  | '-' :: c :: rest =>
    (p.actions.flatMap fun action => action.strings.map fun name => (action, name)).filterMap fun (action, name) =>
      if name.toList = ['-', c] then some (action, name, some ⟨false, rest⟩)
      else if startsWith name arg then some (action, name, none)
      else none
  | _ => []

end Parser

variable (isDecimal : Char → Bool)

/-- `_negative_number_matcher`, which lets a line end at the end of the text. -/
def isNegativeNumber (text : List Char) : Bool :=
  let isNumber (digits : List Char) := !digits.isEmpty && digits.all isDecimal
  match text with
  | '-' :: rest =>
    let rest := if rest.getLast? = some '\n' then rest.dropLast else rest
    isNumber rest || (partitionAt '.' rest).any fun (whole, fraction) => whole.all isDecimal && isNumber fraction
  | _ => false

/-- `_has_negative_number_optionals`. -/
def Parser.hasNegativeNumberOptionals (p : Parser) : Bool :=
  p.actions.any fun action => action.strings.any fun name => isNegativeNumber isDecimal name.toList

/-- `_parse_optional`. Where several options begin like the argument, there is none it could be. -/
def parseOptional (p : Parser) (arg : String) : Reading :=
  match arg.toList with
  | [] => .argument
  | c :: rest =>
    if c ≠ '-' then .argument
    else
      match p.lookup arg with
      | some action => .option action arg none
      | none =>
        if rest = [] then .argument
        else
          match (partitionAt '=' (c :: rest)).bind fun (name, text) => (p.lookup (String.ofList name)).map fun a => (a, name, text) with
          | some (action, name, text) => .option action (String.ofList name) (some ⟨true, text⟩)
          | none =>
            match p.getOptionTuples arg with
            | [(action, name, explicit)] => .option action name explicit
            | _ :: _ :: _ => .unknown
            | [] =>
              if isNegativeNumber isDecimal (c :: rest) && !p.hasNegativeNumberOptionals isDecimal then .argument
              else if ' ' ∈ rest then .argument
              else .unknown

/-- What came of an option: the options it stands for, its role, and the option that waits for the next argument. -/
structure Consumed where
  seen : List String
  role : Role
  expecting : Option Action

/-- An option without a text behind it. -/
def consumeBare (action : Action) : Option Consumed :=
  if action.exits then none
  else some ⟨[action.dest], .option, if action.nargs = .zero then none else some action⟩

/-- An option with its operand behind it; one that takes no operand is an error there. -/
def consumeAttached (action : Action) (text : List Char) : Option Consumed :=
  if action.nargs = .zero || action.exits || !action.accepts (String.ofList text) then none
  else some ⟨[action.dest], .attached action.dest text, none⟩

/-- An option with a text right behind it: its operand, or more one-letter options. -/
def consumeText (p : Parser) (action : Action) (name : List Char) : List Char → Option Consumed
  | [] => consumeAttached action []
  | c :: rest =>
    if action.nargs ≠ .zero then consumeAttached action (c :: rest)
    else if action.exits || name[1]? = some '-' || c = '-' then none
    else
      match p.lookup (String.ofList ['-', c]) with
      | none => none
      | some next =>
        let consumed :=
          if rest = [] then consumeBare next
          else if rest.head? = some '=' then consumeAttached next rest.tail
          else consumeText p next ['-', c] rest
        consumed.map fun consumed => { consumed with seen := action.dest :: consumed.seen }

/-- `consume_optional`, up to the operand in the next argument. -/
def consumeOptional (p : Parser) (action : Action) (name : String) : Option Explicit → Option Consumed
  | none => consumeBare action
  | some ⟨true, text⟩ => consumeAttached action text
  | some ⟨false, text⟩ => consumeText p action name.toList text

/-- Whether the arguments that stand for themselves are still to come, are being read, or were read. -/
inductive Positionals where
  | fresh
  | opened
  | closed
  deriving DecidableEq, Repr

/-- What is known between two arguments: the option that waits for an operand, the state of the arguments that stand for themselves,
whether there was a `--`, and the options so far. -/
structure State where
  expecting : Option Action := none
  positionals : Positionals := .fresh
  separated : Bool := false
  seen : List String := []

/-- An argument that stands for itself. -/
def State.positional (p : Parser) (s : State) : Option (State × Role) :=
  match s.positionals with
  | .fresh => some ({ s with positionals := .opened }, .positional)
  | .opened => if p.anyPositionals then some (s, .positional) else none
  | .closed => none

/-- Whether an option waits that cannot do without an operand. -/
def State.waits (s : State) : Bool := s.expecting.any fun action => action.nargs = .one

/-- Read one argument. -/
def step (p : Parser) (s : State) (arg : String) : Option (State × Role) :=
  if s.separated then s.positional p
  else if arg = "--" then
    if s.waits || s.positionals = .closed then none
    else some ({ s with expecting := none, separated := true }, .separator)
  else
    match parseOptional isDecimal p arg, s.expecting with
    | .unknown, _ => none
    | .argument, some action => if action.accepts arg then some ({ s with expecting := none }, .operand action.dest) else none
    | .argument, none => s.positional p
    | .option action name explicit, _ =>
      if s.waits then none
      else
        (consumeOptional p action name explicit).map fun consumed =>
          ({ s with
              expecting := consumed.expecting
              positionals := if s.positionals = .fresh then .fresh else .closed
              seen := s.seen ++ consumed.seen }, consumed.role)

/-- Read the arguments from a state on. -/
def parseFrom (p : Parser) (s : State) : List String → Option (List Role)
  | [] =>
    if s.waits || p.exclusive.any fun group => 1 < ((group.filter fun dest => s.seen.contains dest).length) then none
    else some []
  | arg :: args => do
    let (s', role) ← step isDecimal p s arg
    let roles ← parseFrom p s' args
    return role :: roles

/-- `parse_args`: the role of every argument, if the parser accepts them. -/
def parseArgs (p : Parser) (argv : List String) : Option (List Role) := parseFrom isDecimal p {} argv

variable {p : Parser} {isDecimal}

/-! ## What an option is spelled like -/

theorem mem_of_lookup {name : String} {action : Action} (h : p.lookup name = some action) :
    action ∈ p.actions ∧ name ∈ action.strings := by
  have hfind : (p.actions.find? fun action : Action => action.strings.contains name) = some action := h
  have hcontains := List.find?_some hfind
  exact ⟨List.mem_of_find?_eq_some h, List.contains_iff_mem.1 hcontains⟩

/-- How an option can be read from an argument: it is the argument, or what stands before `=`, or the first letter, or it only
begins like the argument. -/
inductive Spelled (arg : String) (action : Action) : String → Option Explicit → Prop where
  | exact : arg ∈ action.strings → Spelled arg action arg none
  | equals {name : String} {text : List Char} :
      name ∈ action.strings → arg.toList = name.toList ++ '=' :: text → Spelled arg action name (some ⟨true, text⟩)
  | letter {name : String} {c : Char} {text : List Char} :
      name ∈ action.strings → name.toList = ['-', c] → c ≠ '-' → Spelled arg action name (some ⟨false, text⟩)
  | begins {name : String} {c : Char} {text : List Char} :
      name ∈ action.strings → arg.toList = '-' :: c :: text → c ≠ '-' → startsWith name arg = true → Spelled arg action name none

theorem spelled_of_getOptionTuples {arg name : String} {action : Action} {explicit : Option Explicit}
    (h : (action, name, explicit) ∈ p.getOptionTuples arg) : action ∈ p.actions ∧ Spelled arg action name explicit := by
  unfold Parser.getOptionTuples at h
  split at h
  · cases h
  · rename_i c rest hne harg
    obtain ⟨⟨a, s⟩, hmem, hsome⟩ := List.mem_filterMap.1 h
    obtain ⟨a', ha, hs⟩ := List.mem_flatMap.1 hmem
    obtain ⟨s', hs', heq⟩ := List.mem_map.1 hs
    obtain ⟨rfl, rfl⟩ := Prod.mk.inj heq
    simp only at hsome
    split at hsome
    · obtain ⟨rfl, hrest⟩ := Prod.mk.inj (Option.some.inj hsome)
      obtain ⟨rfl, rfl⟩ := Prod.mk.inj hrest
      exact ⟨ha, .letter hs' ‹_› hne⟩
    · split at hsome
      · obtain ⟨rfl, hrest⟩ := Prod.mk.inj (Option.some.inj hsome)
        obtain ⟨rfl, rfl⟩ := Prod.mk.inj hrest
        exact ⟨ha, .begins hs' harg hne ‹_›⟩
      · cases hsome
  · cases h

/-- An option that is read is one of the parser's. -/
theorem spelled_of_parseOptional {arg name : String} {action : Action} {explicit : Option Explicit}
    (h : parseOptional isDecimal p arg = .option action name explicit) : action ∈ p.actions ∧ Spelled arg action name explicit := by
  unfold parseOptional at h
  split at h
  · cases h
  · rename_i c rest harg
    split at h
    · cases h
    · split at h
      · rename_i a ha
        obtain ⟨rfl, rfl, rfl⟩ : a = action ∧ arg = name ∧ none = explicit := by simpa using h
        exact ⟨(mem_of_lookup ha).1, .exact (mem_of_lookup ha).2⟩
      · split at h
        · cases h
        · split at h
          · rename_i a before text hbind
            obtain ⟨⟨before', text'⟩, hparts, hmap⟩ := Option.bind_eq_some_iff.1 hbind
            obtain ⟨a', ha, heq⟩ := Option.map_eq_some_iff.1 hmap
            obtain ⟨rfl, hrest⟩ := Prod.mk.inj heq
            obtain ⟨rfl, rfl⟩ := Prod.mk.inj hrest
            obtain ⟨rfl, rfl, rfl⟩ : a' = action ∧ String.ofList before' = name ∧ some (⟨true, text'⟩ : Explicit) = explicit := by
              simpa using h
            refine ⟨(mem_of_lookup ha).1, .equals (mem_of_lookup ha).2 ?_⟩
            rw [harg, (partitionAt_eq_some hparts).1, String.toList_ofList]
          · split at h
            · rename_i a s e htuples
              obtain ⟨rfl, rfl, rfl⟩ : a = action ∧ s = name ∧ e = explicit := by simpa using h
              exact spelled_of_getOptionTuples (htuples ▸ List.mem_singleton_self _)
            · cases h
            · split at h
              · cases h
              · split at h <;> cases h

/-! ## One long option with an operand -/

/-- One option sets `dest`: it is spelled `name` only, which is a long spelling, and takes one operand. -/
structure Parser.Binds (p : Parser) (name dest : String) : Prop where
  long : ∃ c rest, name.toList = '-' :: '-' :: c :: rest
  plain : '=' ∉ name.toList
  found : ∃ action, p.lookup name = some action ∧ action.dest = dest
  only : ∀ action ∈ p.actions, action.dest = dest → action.strings = [name] ∧ action.nargs = .one ∧ action.exits = false
  noEquals : ∀ action ∈ p.actions, ∀ s ∈ action.strings, '=' ∉ s.toList

namespace Parser.Binds

variable {name dest : String} {action : Action}

/-- The option is read where it is spelled. -/
theorem parseOptional_self (h : p.Binds name dest) (isDecimal : Char → Bool) :
    ∃ action, parseOptional isDecimal p name = .option action name none ∧ action ∈ p.actions ∧ action.dest = dest := by
  obtain ⟨action, hlookup, hdest⟩ := h.found
  obtain ⟨c, rest, hname⟩ := h.long
  refine ⟨action, ?_, (mem_of_lookup hlookup).1, hdest⟩
  simp only [parseOptional, hname, hlookup, ne_eq, not_true_eq_false, if_false]

/-- The option is read where its operand stands behind `=`. -/
theorem parseOptional_equals (h : p.Binds name dest) (isDecimal : Char → Bool) {arg : String} {text : List Char} (harg : arg.toList = name.toList ++ '=' :: text) :
    ∃ action, parseOptional isDecimal p arg = .option action name (some ⟨true, text⟩) ∧ action ∈ p.actions ∧ action.dest = dest := by
  obtain ⟨action, hlookup, hdest⟩ := h.found
  obtain ⟨c, rest, hname⟩ := h.long
  refine ⟨action, ?_, (mem_of_lookup hlookup).1, hdest⟩
  have hnone : p.lookup arg = none := by
    cases hsome : p.lookup arg with
    | none => rfl
    | some other =>
      obtain ⟨hmem, hstring⟩ := mem_of_lookup hsome
      refine absurd ?_ (h.noEquals other hmem arg hstring)
      rw [harg]
      exact List.mem_append_right _ List.mem_cons_self
  have hparts := partitionAt_append h.plain text
  rw [hname] at harg hparts
  simp only [List.cons_append] at harg hparts
  have hofList : String.ofList ('-' :: '-' :: c :: rest) = name := by rw [← hname, String.ofList_toList]
  simp only [parseOptional, harg, hnone, hparts, hofList, hlookup, ne_eq, not_true_eq_false, if_false, reduceCtorEq, Option.bind_some,
    Option.map_some]

/-- No one-letter option sets `dest`. -/
theorem dest_ne_of_short (h : p.Binds name dest) {short : String} {c : Char} (hmem : action ∈ p.actions)
    (hstring : short ∈ action.strings) (hshort : short.toList = ['-', c]) : action.dest ≠ dest := by
  intro hdest
  rw [(h.only action hmem hdest).1, List.mem_singleton] at hstring
  obtain ⟨d, rest, hname⟩ := h.long
  rw [hstring, hname] at hshort
  cases hshort

end Parser.Binds

/-- An option that does not set `dest`, nor waits for an operand that does. -/
def Consumed.Foreign (p : Parser) (dest : String) (consumed : Consumed) : Prop :=
  (∀ action, consumed.expecting = some action → action ∈ p.actions ∧ action.dest ≠ dest) ∧
    (∀ text, consumed.role ≠ .attached dest text) ∧ consumed.role ≠ .operand dest

section

variable {name dest : String} {action : Action} {consumed : Consumed}

theorem foreign_consumeAttached {text : List Char} (hdest : action.dest ≠ dest) (h : consumeAttached action text = some consumed) :
    consumed.Foreign p dest := by
  unfold consumeAttached at h
  split at h
  · cases h
  · obtain rfl := Option.some.inj h
    refine ⟨nofun, fun _ heq => hdest ?_, nofun⟩
    injection heq

theorem foreign_consumeBare (hmem : action ∈ p.actions) (hdest : action.dest ≠ dest) (h : consumeBare action = some consumed) :
    consumed.Foreign p dest := by
  unfold consumeBare at h
  split at h
  · cases h
  · obtain rfl := Option.some.inj h
    refine ⟨fun other heq => ?_, nofun, nofun⟩
    simp only at heq
    split at heq
    · cases heq
    · exact Option.some.inj heq ▸ ⟨hmem, hdest⟩

theorem foreign_consumeText (h : p.Binds name dest) {text spelling : List Char} (hdest : action.dest ≠ dest)
    (hconsumed : consumeText p action spelling text = some consumed) : consumed.Foreign p dest := by
  induction text generalizing action spelling consumed with
  | nil => exact foreign_consumeAttached hdest hconsumed
  | cons c rest ih =>
    unfold consumeText at hconsumed
    split at hconsumed
    · exact foreign_consumeAttached hdest hconsumed
    · split at hconsumed
      · cases hconsumed
      · split at hconsumed
        · cases hconsumed
        · rename_i next hlookup
          obtain ⟨inner, hinner, rfl⟩ := Option.map_eq_some_iff.1 hconsumed
          obtain ⟨hmem, hstring⟩ := mem_of_lookup hlookup
          have hnext : next.dest ≠ dest := h.dest_ne_of_short hmem hstring (String.toList_ofList)
          have hforeign : inner.Foreign p dest := by
            split at hinner
            · exact foreign_consumeBare hmem hnext hinner
            · split at hinner
              · exact foreign_consumeAttached hnext hinner
              · exact ih hnext hinner
          exact hforeign

/-- What an option that is read comes to: it is the one that sets `dest`, without or with its operand, or it has nothing to do with
`dest`. -/
theorem consumeOptional_cases (h : p.Binds name dest) {arg spelling : String} {explicit : Option Explicit}
    (hread : parseOptional isDecimal p arg = .option action spelling explicit)
    (hconsumed : consumeOptional p action spelling explicit = some consumed) :
    (arg = name ∧ consumed.role = .option ∧ consumed.expecting = some action ∧ action ∈ p.actions ∧ action.dest = dest) ∨
    (∃ text, arg.toList = name.toList ++ '=' :: text ∧ consumed.role = .attached dest text ∧ consumed.expecting = none) ∨
    (arg ≠ name ∧ (∀ text, arg.toList ≠ name.toList ++ '=' :: text) ∧ consumed.Foreign p dest) := by
  obtain ⟨hmem, hspelled⟩ := spelled_of_parseOptional hread
  by_cases hdest : action.dest = dest
  · obtain ⟨hstrings, hnargs, hexits⟩ := h.only action hmem hdest
    have hname : ∀ {s : String}, s ∈ action.strings → s = name := fun hs => List.mem_singleton.1 (hstrings ▸ hs)
    cases hspelled with
    | exact hstring =>
      refine .inl ⟨hname hstring, ?_⟩
      simp only [consumeOptional, consumeBare, hexits, Bool.false_eq_true, if_false, hnargs, reduceCtorEq, Option.some.injEq] at hconsumed
      subst hconsumed
      exact ⟨rfl, rfl, hmem, hdest⟩
    | @equals _ text hstring harg =>
      obtain rfl := hname hstring
      refine .inr (.inl ⟨text, harg, ?_⟩)
      simp only [consumeOptional, consumeAttached] at hconsumed
      split at hconsumed
      · cases hconsumed
      · obtain rfl := Option.some.inj hconsumed
        exact ⟨by rw [hdest], rfl⟩
    | letter hstring hshort _ => exact absurd hdest (h.dest_ne_of_short hmem hstring hshort)
    | @begins _ c text hstring harg hc hstarts =>
      obtain rfl := hname hstring
      obtain ⟨d, rest, hlong⟩ := h.long
      have hprefix : arg.toList <+: spelling.toList := List.isPrefixOf_iff_prefix.1 hstarts
      rw [harg, hlong, List.cons_prefix_cons, List.cons_prefix_cons] at hprefix
      exact absurd hprefix.2.1 hc
  · refine .inr (.inr ⟨?_, ?_, ?_⟩)
    · rintro rfl
      obtain ⟨bound, hbound, -, hboundDest⟩ := h.parseOptional_self isDecimal
      rw [hbound] at hread
      injection hread with hsame
      exact hdest (hsame ▸ hboundDest)
    · intro text harg
      obtain ⟨bound, hbound, -, hboundDest⟩ := h.parseOptional_equals isDecimal harg
      rw [hbound] at hread
      injection hread with hsame
      exact hdest (hsame ▸ hboundDest)
    · cases hspelled with
      | exact _ => exact foreign_consumeBare hmem hdest hconsumed
      | equals _ _ => exact foreign_consumeAttached hdest hconsumed
      | letter _ _ _ => exact foreign_consumeText h hdest hconsumed
      | begins _ _ _ _ => exact foreign_consumeBare hmem hdest hconsumed

end

/-! ## Steps and the operands of one option -/

/-- Whether the option that waits sets `dest`. -/
def State.Expects (s : State) (dest : String) : Prop := ∃ action, s.expecting = some action ∧ action.dest = dest

/-- The option that waits is one of the parser's. -/
def State.Valid (p : Parser) (s : State) : Prop := ∀ action, s.expecting = some action → action ∈ p.actions

section

variable {name dest arg : String} {s s' : State} {role : Role}

theorem positional_eq_some (h : s.positional p = some (s', role)) :
    role = .positional ∧ s'.expecting = s.expecting ∧ s'.separated = s.separated := by
  unfold State.positional at h
  split at h
  · obtain ⟨rfl, rfl⟩ := Prod.mk.inj (Option.some.inj h)
    exact ⟨rfl, rfl, rfl⟩
  · split at h
    · obtain ⟨rfl, rfl⟩ := Prod.mk.inj (Option.some.inj h)
      exact ⟨rfl, rfl, rfl⟩
    · cases h
  · cases h

/-- Behind `--` every argument stands for itself. -/
theorem step_separated (hs : s.separated = true) (h : step isDecimal p s arg = some (s', role)) :
    role = .positional ∧ s'.separated = true := by
  rw [step, if_pos hs] at h
  obtain ⟨hrole, -, hseparated⟩ := positional_eq_some h
  exact ⟨hrole, hseparated.trans hs⟩

/-- An argument that is no option is not spelled like one. -/
theorem Parser.Binds.ne_of_argument (h : p.Binds name dest) (hread : parseOptional isDecimal p arg = .argument) :
    arg ≠ name ∧ ∀ text, arg.toList ≠ name.toList ++ '=' :: text := by
  constructor
  · rintro rfl
    obtain ⟨action, hself, -⟩ := h.parseOptional_self isDecimal
    rw [hread] at hself
    cases hself
  · intro text harg
    obtain ⟨action, hself, -⟩ := h.parseOptional_equals isDecimal harg
    rw [hread] at hself
    cases hself

/-- `--` is not spelled like a long option. -/
theorem Parser.Binds.ne_separator (h : p.Binds name dest) :
    "--" ≠ name ∧ ∀ text, "--".toList ≠ name.toList ++ '=' :: text := by
  obtain ⟨c, rest, hname⟩ := h.long
  constructor
  · rintro rfl
    simp at hname
  · intro text hdash
    rw [hname] at hdash
    simp at hdash

/-- An option that waits for the operand that sets `dest` cannot do without it. -/
theorem State.Expects.waits (hexpects : s.Expects dest) (h : p.Binds name dest) (hvalid : s.Valid p) : s.waits = true := by
  obtain ⟨action, haction, hdest⟩ := hexpects
  rw [State.waits, haction, Option.any_some, decide_eq_true_iff]
  exact (h.only action (hvalid action haction) hdest).2.1

/-- What an argument can do: it is the operand that is waited for; it is the option that waits for it; it is both; or it has nothing
to do with it. -/
theorem step_cases (h : p.Binds name dest) (hs : s.separated = false) (hvalid : s.Valid p)
    (hstep : step isDecimal p s arg = some (s', role)) :
    s'.Valid p ∧
    ((s.Expects dest ∧ role = .operand dest ∧ ¬ s'.Expects dest) ∨
    (¬ s.Expects dest ∧ arg = name ∧ role = .option ∧ s'.Expects dest) ∨
    (¬ s.Expects dest ∧ ∃ text, arg.toList = name.toList ++ '=' :: text ∧ role = .attached dest text ∧ ¬ s'.Expects dest) ∨
    (¬ s.Expects dest ∧ arg ≠ name ∧ (∀ text, arg.toList ≠ name.toList ++ '=' :: text) ∧
      (∀ text, role ≠ .attached dest text) ∧ role ≠ .operand dest ∧ ¬ s'.Expects dest)) := by
  have hnot : s.waits = false → ¬ s.Expects dest := fun hwaits hexpects => by
    rw [hexpects.waits h hvalid] at hwaits
    cases hwaits
  rw [step, if_neg (by rw [hs]; exact Bool.false_ne_true)] at hstep
  split at hstep
  · subst arg
    split at hstep
    · cases hstep
    · rename_i hclosed
      rw [Bool.or_eq_true, not_or, Bool.not_eq_true] at hclosed
      obtain ⟨rfl, rfl⟩ := Prod.mk.inj (Option.some.inj hstep)
      refine ⟨nofun, .inr (.inr (.inr ⟨hnot hclosed.1, h.ne_separator.1, h.ne_separator.2, nofun, nofun, ?_⟩))⟩
      rintro ⟨_, hnone, -⟩
      cases hnone
  · split at hstep
    · cases hstep
    · rename_i action hread hexpecting
      split at hstep
      · obtain ⟨rfl, rfl⟩ := Prod.mk.inj (Option.some.inj hstep)
        refine ⟨nofun, ?_⟩
        have hafter : ¬ ({ s with expecting := none } : State).Expects dest := by
          rintro ⟨_, hnone, -⟩
          cases hnone
        by_cases hdest : action.dest = dest
        · exact .inl ⟨⟨action, hexpecting, hdest⟩, by rw [hdest], hafter⟩
        · obtain ⟨hne, hequals⟩ := h.ne_of_argument hread
          refine .inr (.inr (.inr ⟨?_, hne, hequals, nofun, fun heq => hdest ?_, hafter⟩))
          · rintro ⟨other, hother, hotherDest⟩
            rw [hexpecting] at hother
            exact hdest (Option.some.inj hother ▸ hotherDest)
          · injection heq
      · cases hstep
    · rename_i hread hexpecting
      obtain ⟨rfl, hexpecting', -⟩ := positional_eq_some hstep
      obtain ⟨hne, hequals⟩ := h.ne_of_argument hread
      have hnone : ∀ t : State, t.expecting = none → ¬ t.Expects dest := fun t ht hexpects => by
        obtain ⟨_, hsome, -⟩ := hexpects
        rw [ht] at hsome
        cases hsome
      refine ⟨fun action haction => ?_, .inr (.inr (.inr ⟨hnone s hexpecting, hne, hequals, nofun, nofun,
        hnone s' (hexpecting'.trans hexpecting)⟩))⟩
      rw [hexpecting', hexpecting] at haction
      cases haction
    · rename_i action spelling explicit hread
      split at hstep
      · cases hstep
      · rename_i hwaits
        rw [Bool.not_eq_true] at hwaits
        obtain ⟨consumed, hconsumed, heq⟩ := Option.map_eq_some_iff.1 hstep
        obtain ⟨rfl, rfl⟩ := Prod.mk.inj heq
        rcases consumeOptional_cases h hread hconsumed with
          ⟨hname, hrole, hexpecting, hmem, hdest⟩ | ⟨text, harg, hrole, hexpecting⟩ | ⟨hne, hequals, hexpecting, hattached, hoperand⟩
        · exact ⟨fun other hother => Option.some.inj (hexpecting.symm.trans hother) ▸ hmem,
            .inr (.inl ⟨hnot hwaits, hname, hrole, action, hexpecting, hdest⟩)⟩
        · refine ⟨fun other hother => ?_, .inr (.inr (.inl ⟨hnot hwaits, text, harg, hrole, ?_⟩))⟩
          · cases hexpecting.symm.trans hother
          · rintro ⟨other, hother, -⟩
            cases hexpecting.symm.trans hother
        · refine ⟨fun other hother => (hexpecting other hother).1, .inr (.inr (.inr ⟨hnot hwaits, hne, hequals, hattached, hoperand, ?_⟩))⟩
          rintro ⟨other, hother, hdest⟩
          exact (hexpecting other hother).2 hdest

end

end Ferm.Argparse
