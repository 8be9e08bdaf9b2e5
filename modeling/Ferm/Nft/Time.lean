import Ferm.Lib.MixedRadix
import Ferm.Lib.Monadic
import Ferm.Nft.Values

/-!
# Times

A time is written as the kernel prints it: days, hours, minutes, seconds and milliseconds, those that are not zero. Reading the
text gives the time back.
-/

namespace Ferm

/-- `_TIME_UNITS_MS`: the largest unit first. -/
def TIME_UNITS_MS : List (String × Nat) := [("d", 86400000), ("h", 3600000), ("m", 60000), ("s", 1000), ("ms", 1)]

/-- A count with its unit. -/
def timePart (c : Nat × (String × Nat)) : Except Raised String := do
  let whole ← strOf c.1
  return whole ++ c.2.1

/-- `_nft_time_canon`. -/
def nftTimeCanon (milliseconds : Nat) : Except Raised String :=
  if milliseconds = 0 then .error (.ferm "stateful timeout must be positive for the nft backend")
  else do
    let parts ← (MixedRadix.components TIME_UNITS_MS milliseconds).mapM timePart
    return String.join parts

/-- `_HASHLIMIT_PERIOD_TIMEOUT`. -/
def HASHLIMIT_PERIOD_TIMEOUT : List (String × String) := [("minute", "1m"), ("hour", "1h"), ("day", "1d")]

/-- `_hashlimit_timeout`. -/
def hashlimitTimeout (opts : String → Option Unfold.RenderedOption) (unit : String) : Except Raised (Option String) :=
  match opts "hashlimit-htable-expire" with
  | none => .ok (HASHLIMIT_PERIOD_TIMEOUT.lookup unit)
  | some expire => do
    let (milliseconds, _) ← unwrapValue expire.value
    if isAsciiUint milliseconds.toList then
      let text ← (intOf milliseconds).bind nftTimeCanon
      return some text
    else .error (.ferm ("invalid hashlimit htable-expire '" ++ milliseconds ++ "' for the nft backend"))

/-! ## Reading a time -/

/-- The milliseconds of a text: counts, each with its unit. -/
def readTime (total number : Nat) (unit : List Char) : List Char → Option Nat
  | [] => (TIME_UNITS_MS.lookup (String.ofList unit)).map fun span => total + number * span
  | c :: cs =>
    if c.isDigit then
      if unit = [] then readTime total (10 * number + digitValue c) [] cs
      else do
        let span ← TIME_UNITS_MS.lookup (String.ofList unit)
        readTime (total + number * span) (digitValue c) [] cs
    else readTime total number (unit ++ [c]) cs

/-- The text of a count with its unit. -/
def componentText (c : Nat × (String × Nat)) : List Char := Nat.toDigits 10 c.1 ++ c.2.1.toList

theorem readTime_digits {digits : List Char} (h : ∀ c ∈ digits, c.isDigit = true) (total number : Nat) (rest : List Char) :
    readTime total number [] (digits ++ rest) =
      readTime total (digits.foldl (fun n c => 10 * n + digitValue c) number) [] rest := by
  induction digits generalizing number with
  | nil => rfl
  | cons d digits ih =>
    obtain ⟨hd, hdigits⟩ := List.forall_mem_cons.1 h
    rw [List.cons_append, readTime, if_pos hd, if_pos rfl, ih hdigits, List.foldl_cons]

theorem readTime_unit {letters : List Char} (h : ∀ c ∈ letters, c.isDigit = false) (total number : Nat) (unit rest : List Char) :
    readTime total number unit (letters ++ rest) = readTime total number (unit ++ letters) rest := by
  induction letters generalizing unit with
  | nil => rw [List.nil_append, List.append_nil]
  | cons c letters ih =>
    obtain ⟨hc, hletters⟩ := List.forall_mem_cons.1 h
    rw [List.cons_append, readTime, if_neg (Bool.eq_false_iff.1 hc), ih hletters, List.append_assoc, List.singleton_append]

/-- The units are spelled without digits, and none of them twice. -/
theorem timeUnit_spec {unit : String × Nat} (h : unit ∈ TIME_UNITS_MS) :
    TIME_UNITS_MS.lookup unit.1 = some unit.2 ∧ unit.1.toList ≠ [] ∧ ∀ c ∈ unit.1.toList, c.isDigit = false := by
  have hall : ∀ unit ∈ TIME_UNITS_MS, TIME_UNITS_MS.lookup unit.1 = some unit.2 ∧ unit.1.toList ≠ [] ∧
      (unit.1.toList.all fun c => !c.isDigit) = true := by decide
  obtain ⟨hlookup, hne, hletters⟩ := hall unit h
  exact ⟨hlookup, hne, fun c hc => by simpa using List.all_eq_true.1 hletters c hc⟩

theorem isDigit_of_mem_toDigits {n : Nat} {c : Char} (h : c ∈ Nat.toDigits 10 n) : c.isDigit = true :=
  Nat.isDigit_of_mem_toDigits (by decide) (by decide) h

/-- Counts that are written one after the other are read back. -/
theorem readTime_components {counts : List (Nat × (String × Nat))} (hunits : ∀ c ∈ counts, c.2 ∈ TIME_UNITS_MS) (hne : counts ≠ [])
    (total : Nat) : readTime total 0 [] (counts.flatMap componentText) = some (total + MixedRadix.value counts) := by
  have hone : ∀ (c : Nat × (String × Nat)) (total : Nat) (rest : List Char), c.2 ∈ TIME_UNITS_MS →
      readTime total 0 [] (componentText c ++ rest) = readTime total c.1 c.2.1.toList rest := by
    intro c total rest hc
    obtain ⟨-, -, hletters⟩ := timeUnit_spec hc
    have hvalue : (Nat.toDigits 10 c.1).foldl (fun n d => 10 * n + digitValue d) 0 = c.1 :=
      uintValue_toDigits (by decide) (by decide) c.1
    rw [componentText, List.append_assoc, readTime_digits (fun d hd => isDigit_of_mem_toDigits hd), hvalue, readTime_unit hletters,
      List.nil_append]
  induction counts generalizing total with
  | nil => exact absurd rfl hne
  | cons c counts ih =>
    obtain ⟨hc, hcounts⟩ := List.forall_mem_cons.1 hunits
    obtain ⟨hlookup, hletters, -⟩ := timeUnit_spec hc
    have hvalue : MixedRadix.value (c :: counts) = c.1 * c.2.2 + MixedRadix.value counts := by
      rw [MixedRadix.value, List.map_cons, List.sum_cons, ← MixedRadix.value]
    rw [List.flatMap_cons, hone c total _ hc, hvalue]
    cases counts with
    | nil =>
      rw [List.flatMap_nil, readTime, String.ofList_toList, hlookup]
      rfl
    | cons next counts =>
      -- the first digit of the next count ends this one
      obtain ⟨d, digits, hdigits⟩ := List.exists_cons_of_ne_nil (Nat.toDigits_ne_nil (n := next.1) (b := 10))
      have hd : d.isDigit = true := isDigit_of_mem_toDigits (hdigits ▸ List.mem_cons_self)
      have hnext : (next :: counts).flatMap componentText = d :: (digits ++ next.2.1.toList ++ counts.flatMap componentText) := by
        rw [List.flatMap_cons, componentText, hdigits, List.cons_append, List.cons_append]
      have hih := ih hcounts (List.cons_ne_nil _ _) (total + c.1 * c.2.2)
      rw [hnext, readTime, if_pos hd, if_pos rfl, Nat.mul_zero, Nat.zero_add] at hih
      rw [hnext, readTime, if_pos hd, if_neg hletters, String.ofList_toList, hlookup]
      rw [← Nat.add_assoc, ← hih]
      rfl

/-- The text of a number is written when it is short enough. -/
theorem timePart_eq_ok_iff {c : Nat × (String × Nat)} {text : String} :
    timePart c = .ok text ↔ (Nat.toDigits 10 c.1).length ≤ INT_MAX_STR_DIGITS ∧ text = String.ofList (componentText c) := by
  have htext : String.ofList (componentText c) = String.ofList (Nat.toDigits 10 c.1) ++ c.2.1 := by
    rw [componentText, String.ofList_append, String.ofList_toList]
  rw [timePart, Except.bind_eq_ok_of_spec fun _ => strOf_eq_ok_iff, Except.return_eq_ok_iff, htext]

/-- A time is written count after count. -/
theorem nftTimeCanon_eq_ok_iff {milliseconds : Nat} {text : String} : nftTimeCanon milliseconds = .ok text ↔
    0 < milliseconds ∧
      (∀ c ∈ MixedRadix.components TIME_UNITS_MS milliseconds, (Nat.toDigits 10 c.1).length ≤ INT_MAX_STR_DIGITS) ∧
      text.toList = (MixedRadix.components TIME_UNITS_MS milliseconds).flatMap componentText := by
  have hjoin : ∀ counts : List (Nat × (String × Nat)),
      (String.join (counts.map fun c => String.ofList (componentText c))).toList = counts.flatMap componentText := by
    intro counts
    rw [String.toList_join, List.flatMap_map]
    simp only [String.toList_ofList]
  unfold nftTimeCanon
  split
  · exact iff_of_false nofun (by omega)
  · rename_i hne
    rw [mapM_spec_ok_iff fun _ _ _ => timePart_eq_ok_iff, ← hjoin, String.toList_inj, and_iff_right (Nat.pos_of_ne_zero hne)]

theorem timeUnits_nested : MixedRadix.Nested TIME_UNITS_MS := by
  unfold MixedRadix.Nested
  decide

theorem value_timeComponents (milliseconds : Nat) : MixedRadix.value (MixedRadix.components TIME_UNITS_MS milliseconds) = milliseconds :=
  MixedRadix.value_components [("d", 86400000), ("h", 3600000), ("m", 60000), ("s", 1000)] "ms" milliseconds

/-- What is written for a time is read as the time. -/
theorem readTime_nftTimeCanon {milliseconds : Nat} {text : String} (h : nftTimeCanon milliseconds = .ok text) :
    readTime 0 0 [] text.toList = some milliseconds := by
  obtain ⟨hpos, -, htext⟩ := nftTimeCanon_eq_ok_iff.1 h
  have hvalue := value_timeComponents milliseconds
  have hcounts : MixedRadix.components TIME_UNITS_MS milliseconds ≠ [] := by
    intro hnil
    rw [hnil] at hvalue
    exact Nat.ne_of_gt hpos hvalue.symm
  rw [htext, readTime_components (fun _ hc => MixedRadix.mem_units_of_mem_components hc) hcounts, hvalue, Nat.zero_add]

/-! ## One spelling for a time -/

/-- All counts but that of days are small. -/
theorem timeComponents_short {milliseconds : Nat} : (∀ c ∈ MixedRadix.components TIME_UNITS_MS milliseconds,
    (Nat.toDigits 10 c.1).length ≤ INT_MAX_STR_DIGITS) ↔ (Nat.toDigits 10 (milliseconds / 86400000)).length ≤ INT_MAX_STR_DIGITS := by
  have hshort : ∀ n < 10 ^ 3, (Nat.toDigits 10 n).length ≤ INT_MAX_STR_DIGITS := fun n hn =>
    Nat.le_trans ((Nat.length_toDigits_le_iff (by decide) (by decide)).2 hn) (by decide)
  have hcomponents : MixedRadix.components TIME_UNITS_MS milliseconds = if milliseconds / 86400000 = 0 then
      MixedRadix.components TIME_UNITS_MS.tail (milliseconds % 86400000)
    else (milliseconds / 86400000, ("d", 86400000)) :: MixedRadix.components TIME_UNITS_MS.tail (milliseconds % 86400000) := rfl
  have hratio : ∀ unit ∈ TIME_UNITS_MS.tail, ∃ larger ∈ TIME_UNITS_MS, unit.2 < larger.2 ∧ larger.2 / unit.2 ≤ 10 ^ 3 := by decide
  have hrest : ∀ c ∈ MixedRadix.components TIME_UNITS_MS.tail (milliseconds % 86400000), c.1 < 10 ^ 3 := by
    intro c hc
    obtain ⟨larger, hlarger, hlt, hle⟩ := hratio c.2 (MixedRadix.mem_units_of_mem_components hc)
    have hmem : c ∈ MixedRadix.components TIME_UNITS_MS milliseconds := by
      rw [hcomponents]
      split
      · exact hc
      · exact List.mem_cons_of_mem _ hc
    exact Nat.lt_of_lt_of_le ((MixedRadix.isCanonical_components timeUnits_nested milliseconds).below c hmem larger hlarger hlt) hle
  rw [hcomponents]
  split
  · rename_i hzero
    rw [hzero]
    exact iff_of_true (fun c hc => hshort c.1 (hrest c hc)) (hshort 0 (by decide))
  · rw [List.forall_mem_cons]
    exact and_iff_left fun c hc => hshort c.1 (hrest c hc)

/-- The timeout of a hashlimit is the text of a time: of the one that is given, or of the period of its rate. -/
theorem exists_of_hashlimitTimeout {opts : String → Option Unfold.RenderedOption} {unit text : String}
    (h : hashlimitTimeout opts unit = .ok (some text)) : ∃ milliseconds, nftTimeCanon milliseconds = .ok text := by
  unfold hashlimitTimeout at h
  split at h
  · have hperiods : ∀ period ∈ HASHLIMIT_PERIOD_TIMEOUT, ∃ milliseconds ∈ [60000, 3600000, 86400000],
        nftTimeCanon milliseconds = .ok period.2 := by decide +kernel
    obtain ⟨before, after, hperiod, -⟩ := List.lookup_eq_some_iff.1 (Except.ok.inj h)
    obtain ⟨milliseconds, -, htext⟩ := hperiods (unit, text) (by rw [hperiod]; simp)
    exact ⟨milliseconds, htext⟩
  · obtain ⟨⟨scalar, neg⟩, -, h⟩ := Except.bind_eq_ok.1 h
    dsimp only at h
    split at h
    · obtain ⟨text', htext, h⟩ := Except.bind_eq_ok.1 h
      obtain ⟨milliseconds, -, htext⟩ := Except.bind_eq_ok.1 htext
      cases h
      exact ⟨milliseconds, htext⟩
    · cases h

/-- A positive time whose days Python can write has a text. It is read as the time, it has its units in falling order, with no count
zero and each below the ratio to a larger unit, and no other such counts stand for the time. -/
theorem time_literals_round_trip (milliseconds : Nat) :
    ((∃ text, nftTimeCanon milliseconds = .ok text) ↔
      0 < milliseconds ∧ (Nat.toDigits 10 (milliseconds / 86400000)).length ≤ INT_MAX_STR_DIGITS) ∧
    ∀ text, nftTimeCanon milliseconds = .ok text → readTime 0 0 [] text.toList = some milliseconds ∧
      ∃ counts, text.toList = counts.flatMap componentText ∧ MixedRadix.IsCanonical TIME_UNITS_MS counts ∧
        MixedRadix.value counts = milliseconds ∧
        ∀ other, MixedRadix.IsCanonical TIME_UNITS_MS other → MixedRadix.value other = milliseconds → other = counts := by
  constructor
  · rw [← timeComponents_short]
    constructor
    · rintro ⟨text, h⟩
      obtain ⟨hpos, hshort, -⟩ := nftTimeCanon_eq_ok_iff.1 h
      exact ⟨hpos, hshort⟩
    · rintro ⟨hpos, hshort⟩
      exact ⟨_, nftTimeCanon_eq_ok_iff.2 ⟨hpos, hshort, String.toList_ofList⟩⟩
  · intro text h
    refine ⟨readTime_nftTimeCanon h, _, (nftTimeCanon_eq_ok_iff.1 h).2.2, MixedRadix.isCanonical_components timeUnits_nested milliseconds,
      value_timeComponents milliseconds, fun other hother hvalue => ?_⟩
    rw [← MixedRadix.components_value timeUnits_nested (by decide) hother, hvalue]

theorem time_literals_round_trip_day : nftTimeCanon 90061500 = .ok "1d1h1m1s500ms" ∧
    readTime 0 0 [] "1d1h1m1s500ms".toList = some 90061500 := by
  have htext : nftTimeCanon 90061500 = .ok "1d1h1m1s500ms" := by decide +kernel
  exact ⟨htext, ((time_literals_round_trip 90061500).2 _ htext).1⟩

end Ferm
