import Ferm.Lib.Digits
import Ferm.Lib.IntLiteral
import Ferm.Lib.Lines
import Ferm.Plan.Readback
import Mathlib.Algebra.Group.Int.Defs
import Mathlib.Data.List.TakeWhile

/-!
# Chain priorities

A priority is resolved twice: by the parser from a configuration, and by the canonical form of the headers the kernel prints. Both
read every spelling of nft's as the same number. The canonical form of a header is its own, unless the header has no policy and
ends in the word `priority`: the policy that is added is then taken for the priority. A header has no canonical form at all where
the number an offset comes to has more digits than Python writes.
-/

namespace Ferm

/-! ## The parser's side -/

/-- `_PRIORITY_INT_RE`. -/
def isPriorityInt : List Char → Bool
  | '+' :: digits => isAsciiUint digits
  | '-' :: digits => isAsciiUint digits
  | digits => isAsciiUint digits

/-- The name of a landmark, and the sign and the digits of its offset, where `_PRIORITY_LANDMARK_RE` matches. -/
def priorityLandmark (text : List Char) : Option (String × Option (String × List Char)) :=
  let name := text.takeWhile Char.isAlpha
  if name = [] then none
  else
    match (text.dropWhile Char.isAlpha).dropWhile isPySpace with
    | [] => some (String.ofList name, none)
    | sign :: offset =>
      let digits := offset.dropWhile isPySpace
      if (sign = '+' ∨ sign = '-') ∧ isAsciiUint digits then some (String.ofList name, some (String.ofList [sign], digits))
      else none

/-- `_NFT_PRIORITY_MIN` and `_NFT_PRIORITY_MAX`. -/
def InPriorityRange (value : Int) : Prop := -2 ^ 31 ≤ value ∧ value ≤ 2 ^ 31 - 1

instance (value : Int) : Decidable (InPriorityRange value) := by
  unfold InPriorityRange
  infer_instance

/-- `_ensure_priority_in_range`. -/
def ensurePriorityInRange (value : Int) : Option Int := if InPriorityRange value then some value else none

/-- `resolve_chain_priority`, nothing for the errors, those of `int` among them. -/
def resolveChainPriority (family text : String) : Option Int :=
  let text := pyStrip text.toList
  if isPriorityInt text then (pyInt text).bind ensurePriorityInRange
  else do
    let (name, offset) ← priorityLandmark text
    let base ← (NFT_PRIORITY_LANDMARKS family).lookup name
    match offset with
    | none => some base
    | some (sign, digits) =>
      let magnitude ← pyInt digits
      ensurePriorityInRange (applyPriorityOffset base sign magnitude)

example : resolveChainPriority "ip" "dstnat -10" = some (-110) := by decide +kernel

/-! ## The kernel's side -/

/-- The words of a header: semicolons are blanks. -/
def headerWords (header : String) : List String :=
  (pyWords (header.toList.map fun c => if c = ';' then ' ' else c)).map String.ofList

/-- The word a priority is written as, and the words after it, nothing where `str` raises. -/
def writePriority (priorityMap : List (String × Int)) (next : String) (rest : List String) : Option (String × List String) :=
  match priorityMap.lookup next with
  | none => some (next, rest)
  | some base =>
    match rest with
    | sign :: magnitude :: rest' =>
      if sign = "+" ∨ sign = "-" then
        match pyInt magnitude.toList with
        | some m => (pyStr (applyPriorityOffset base sign m)).map (·, rest')
        -- `int` raises, and the name is left as it is
        | none => some (next, rest)
      else some (toString base, rest)
    | _ => some (toString base, rest)

/-- The loop of `canonicalize_nft_header`, with whether it has seen a policy. -/
def writeHeader (priorityMap : List (String × Int)) : Nat → List String → Option (List String × Bool)
  | 0, _ => some ([], false)
  | _ + 1, [] => some ([], false)
  | n + 1, word :: rest =>
    if word = "policy" then (writeHeader priorityMap n rest).map fun r => (word :: r.1, true)
    else
      match rest with
      | next :: rest' =>
        if word = "priority" then do
          let p ← writePriority priorityMap next rest'
          let r ← writeHeader priorityMap n p.2
          some (word :: p.1 :: r.1, r.2)
        else (writeHeader priorityMap n rest).map fun r => (word :: r.1, r.2)
      | [] => some ([word], false)

/-- `canonicalize_nft_header` on the words of a header, nothing where `str` raises. -/
def canonicalizeHeaderWords (family : String) (words : List String) : Option (List String) :=
  (writeHeader (NFT_PRIORITY_LANDMARKS family) words.length words).map fun r => if r.2 then r.1 else r.1 ++ ["policy", "accept"]

/-- `canonicalize_nft_header`. -/
def canonicalizeHeaderText (family header : String) : Option String :=
  (canonicalizeHeaderWords family (headerWords header)).map (String.intercalate " ")

/-- The words nft spells a priority with: its number, a landmark, or a landmark and an offset. -/
inductive PrioritySpelling (family : Family) : Int → List String → Prop
  | number (n : Int) : PrioritySpelling family n [toString n]
  | landmark {name : String} {base : Int} (h : (NFT_PRIORITY_LANDMARKS family.nftName).lookup name = some base) :
      PrioritySpelling family base [name]
  | offset {name : String} {base : Int} (h : (NFT_PRIORITY_LANDMARKS family.nftName).lookup name = some base)
      {sign : String} (hsign : sign = "+" ∨ sign = "-") (magnitude : Nat) :
      PrioritySpelling family (applyPriorityOffset base sign magnitude) [name, sign, toString magnitude]

/-- The word `priority` is the last one that is read, and there is no policy: with `canonicalize_nft_header`'s steps. -/
def endsInPriority (priorityMap : List (String × Int)) : Nat → List String → Bool
  | 0, _ => false
  | _ + 1, [] => false
  | n + 1, word :: rest =>
    if word = "policy" then false
    else
      match rest with
      | next :: rest' =>
        if word = "priority" then endsInPriority priorityMap n (resolvePriority priorityMap next rest').2
        else endsInPriority priorityMap n rest
      | [] => word = "priority"

/-- A header whose canonical form is not its own. -/
def LeavesPriorityOpen (family header : String) : Prop :=
  endsInPriority (NFT_PRIORITY_LANDMARKS family) (headerWords header).length (headerWords header) = true

/-- The number an offset of a landmark comes to. -/
def offsetPriority (priorityMap : List (String × Int)) (next : String) (rest : List String) : Option Int :=
  match priorityMap.lookup next, rest with
  | some base, sign :: magnitude :: _ =>
    if sign = "+" ∨ sign = "-" then (pyInt magnitude.toList).map (applyPriorityOffset base sign) else none
  | _, _ => none

/-- The numbers the offsets of a header come to, along the loop of `canonicalize_nft_header`. -/
def offsetPriorities (priorityMap : List (String × Int)) : Nat → List String → List Int
  | 0, _ => []
  | _ + 1, [] => []
  | n + 1, word :: rest =>
    match rest with
    | next :: rest' =>
      if word = "priority" then
        (offsetPriority priorityMap next rest').toList ++ offsetPriorities priorityMap n (resolvePriority priorityMap next rest').2
      else offsetPriorities priorityMap n rest
    | [] => []

/-- The numbers the offsets of a header come to, with words enough as fuel. -/
def headerOffsets (priorityMap : List (String × Int)) (words : List String) : List Int :=
  offsetPriorities priorityMap words.length words

/-- Every number that an offset of the header comes to can be written. -/
def OffsetsFit (priorityMap : List (String × Int)) (words : List String) : Prop :=
  ∀ n ∈ headerOffsets priorityMap words, digitCount n ≤ INT_MAX_STR_DIGITS

instance (priorityMap : List (String × Int)) (words : List String) : Decidable (OffsetsFit priorityMap words) := by
  unfold OffsetsFit
  infer_instance

/-! ## Numbers that can be written -/

theorem writePriority_eq (map : List (String × Int)) (next : String) (rest : List String) :
    writePriority map next rest =
      if ∀ n ∈ offsetPriority map next rest, digitCount n ≤ INT_MAX_STR_DIGITS then some (resolvePriority map next rest) else none := by
  rw [writePriority, resolvePriority, offsetPriority.eq_def]
  cases map.lookup next with
  | none => simp
  | some base =>
    match rest with
    | [] => simp
    | [_] => simp
    | sign :: magnitude :: rest =>
      by_cases hsign : sign = "+" ∨ sign = "-"
      · cases hint : pyInt magnitude.toList with
        | none => simp [hsign, hint]
        | some m =>
          simp only [hsign, hint, if_true, pyStr, Option.map_some, Option.mem_def, Option.some.injEq, forall_eq']
          split <;> rfl
      · simp [hsign]

/-- The loop goes on as long as numbers can be written. -/
theorem writeHeader_eq (map : List (String × Int)) (n : Nat) (words : List String) :
    writeHeader map n words =
      if ∀ k ∈ offsetPriorities map n words, digitCount k ≤ INT_MAX_STR_DIGITS then some (canonicalizeHeaderLoop map n words)
      else none := by
  induction n generalizing words with
  | zero => simp [writeHeader, offsetPriorities, canonicalizeHeaderLoop]
  | succ n ih =>
    match words with
    | [] => simp [writeHeader, offsetPriorities, canonicalizeHeaderLoop]
    | [word] =>
      have hnil : ∀ n, offsetPriorities map n [] = [] := fun n => by cases n <;> rfl
      by_cases hpolicy : word = "policy"
      · simp [writeHeader, offsetPriorities, canonicalizeHeaderLoop, hpolicy, ih, hnil]
      · simp [writeHeader, offsetPriorities, canonicalizeHeaderLoop, hpolicy]
    | word :: next :: rest =>
      by_cases hpriority : word = "priority"
      · subst hpriority
        have hall : (∀ k ∈ offsetPriorities map (n + 1) ("priority" :: next :: rest), digitCount k ≤ INT_MAX_STR_DIGITS) ↔
            (∀ k ∈ offsetPriority map next rest, digitCount k ≤ INT_MAX_STR_DIGITS) ∧
              ∀ k ∈ offsetPriorities map n (resolvePriority map next rest).2, digitCount k ≤ INT_MAX_STR_DIGITS := by
          rw [offsetPriorities, if_pos rfl, List.forall_mem_append]
          simp only [Option.mem_toList, Option.mem_def]
        have hwrite : writeHeader map (n + 1) ("priority" :: next :: rest) = (writePriority map next rest).bind fun p =>
            (writeHeader map n p.2).bind fun r => some ("priority" :: p.1 :: r.1, r.2) := rfl
        simp only [hwrite, hall, writePriority_eq]
        by_cases hnext : ∀ k ∈ offsetPriority map next rest, digitCount k ≤ INT_MAX_STR_DIGITS
        · simp only [if_pos hnext, Option.bind_some, ih, and_iff_right hnext]
          split <;> rfl
        · rw [if_neg hnext, if_neg fun h => hnext h.1]
          rfl
      · simp only [writeHeader, offsetPriorities, canonicalizeHeaderLoop, ih, hpriority, if_false]
        split <;> split <;> rfl

theorem canonicalizeHeaderWords_eq (family : String) (words : List String) :
    canonicalizeHeaderWords family words =
      if OffsetsFit (NFT_PRIORITY_LANDMARKS family) words then some (canonicalizeNftHeader family words) else none := by
  rw [canonicalizeHeaderWords, writeHeader_eq]
  by_cases hfit : OffsetsFit (NFT_PRIORITY_LANDMARKS family) words
  · rw [if_pos hfit]
    exact congrArg _ (if_pos hfit)
  · rw [if_neg hfit]
    exact congrArg _ (if_neg hfit)

/-! ## Steps of the canonical form -/

theorem length_resolvePriority_le (map : List (String × Int)) (next : String) (rest : List String) :
    (resolvePriority map next rest).2.length ≤ rest.length := by
  unfold resolvePriority
  split
  · exact Nat.le_refl _
  · split
    · split
      · split
        · simp only [List.length_cons]
          omega
        · exact Nat.le_refl _
      · exact Nat.le_refl _
    · exact Nat.le_refl _

section

variable (map : List (String × Int))

/-- Words enough are fuel enough. -/
theorem loop_eq_of_length_le {n : Nat} {words : List String} (h : words.length ≤ n) :
    canonicalizeHeaderLoop map n words = canonicalizeHeaderLoop map words.length words ∧
      endsInPriority map n words = endsInPriority map words.length words ∧
      offsetPriorities map n words = offsetPriorities map words.length words := by
  induction n using Nat.strongRecOn generalizing words with
  | ind n ih =>
    match n, words with
    | 0, [] => exact ⟨rfl, rfl, rfl⟩
    | n + 1, [] => exact ⟨rfl, rfl, rfl⟩
    | n + 1, word :: rest =>
      have hrest : ∀ {words : List String}, words.length ≤ rest.length →
          canonicalizeHeaderLoop map n words = canonicalizeHeaderLoop map rest.length words ∧
            endsInPriority map n words = endsInPriority map rest.length words ∧
            offsetPriorities map n words = offsetPriorities map rest.length words := by
        intro words hwords
        have hlength : rest.length ≤ n := Nat.le_of_succ_le_succ h
        obtain ⟨hleft, hleft', hleft''⟩ := ih n (Nat.lt_succ_self n) (Nat.le_trans hwords hlength)
        obtain ⟨hright, hright', hright''⟩ := ih rest.length (Nat.lt_succ_of_le hlength) hwords
        exact ⟨hleft.trans hright.symm, hleft'.trans hright'.symm, hleft''.trans hright''.symm⟩
      obtain ⟨hloop, hends, hoffsets⟩ := hrest (Nat.le_refl rest.length)
      rw [List.length_cons]
      simp only [canonicalizeHeaderLoop, endsInPriority, offsetPriorities, hloop]
      cases rest with
      | nil => exact ⟨rfl, rfl, rfl⟩
      | cons next rest' =>
        obtain ⟨hnext, hnext', hnext''⟩ := hrest (Nat.le_trans (length_resolvePriority_le map next rest') (Nat.le_succ _))
        simp only [hnext, hnext', hnext'', hends, hoffsets, and_self]

/-- The canonical words of a header without an added policy, and whether a policy was read. -/
def headerLoop (words : List String) : List String × Bool := canonicalizeHeaderLoop map words.length words

/-- The word `priority` is the last one that is read, and there is no policy. -/
def priorityOpen (words : List String) : Bool := endsInPriority map words.length words

theorem headerLoop_policy (rest : List String) :
    headerLoop map ("policy" :: rest) = ("policy" :: (headerLoop map rest).1, true) ∧
      priorityOpen map ("policy" :: rest) = false ∧ headerOffsets map ("policy" :: rest) = headerOffsets map rest := by
  refine ⟨by simp [headerLoop, canonicalizeHeaderLoop], rfl, ?_⟩
  cases rest <;> simp [headerOffsets, offsetPriorities]

theorem headerLoop_priority (next : String) (rest : List String) :
    headerLoop map ("priority" :: next :: rest) =
      ("priority" :: (resolvePriority map next rest).1 :: (headerLoop map (resolvePriority map next rest).2).1,
        (headerLoop map (resolvePriority map next rest).2).2) ∧
      priorityOpen map ("priority" :: next :: rest) = priorityOpen map (resolvePriority map next rest).2 ∧
      headerOffsets map ("priority" :: next :: rest) =
        (offsetPriority map next rest).toList ++ headerOffsets map (resolvePriority map next rest).2 := by
  have hle := Nat.le_trans (length_resolvePriority_le map next rest) (Nat.le_succ _)
  obtain ⟨hloop, hends, hoffsets⟩ := loop_eq_of_length_le map hle
  exact ⟨by simp [headerLoop, canonicalizeHeaderLoop, hloop], by simp [priorityOpen, endsInPriority, hends],
    by simp [headerOffsets, offsetPriorities, hoffsets]⟩

theorem headerLoop_word {word : String} (h : word ≠ "policy" ∧ word ≠ "priority") (rest : List String) :
    headerLoop map (word :: rest) = (word :: (headerLoop map rest).1, (headerLoop map rest).2) ∧
      priorityOpen map (word :: rest) = priorityOpen map rest ∧ headerOffsets map (word :: rest) = headerOffsets map rest := by
  cases rest <;>
    exact ⟨by simp [headerLoop, canonicalizeHeaderLoop, h], by simp [priorityOpen, endsInPriority, h],
      by simp [headerOffsets, offsetPriorities, h]⟩

/-- Induction along the loop: each step takes what it has read off the words. -/
@[elab_as_elim]
theorem header_induction {motive : List String → Prop} (words : List String) (nil : motive [])
    (policy : ∀ rest, motive rest → motive ("policy" :: rest)) (last : motive ["priority"])
    (priority : ∀ next rest, motive (resolvePriority map next rest).2 → motive ("priority" :: next :: rest))
    (word : ∀ word rest, word ≠ "policy" ∧ word ≠ "priority" → motive rest → motive (word :: rest)) : motive words := by
  induction hlength : words.length using Nat.strongRecOn generalizing words with
  | ind n ih =>
    subst hlength
    match words with
    | [] => exact nil
    | first :: rest =>
      by_cases hpolicy : first = "policy"
      · subst hpolicy
        exact policy rest (ih rest.length (Nat.lt_succ_self _) rest rfl)
      · by_cases hpriority : first = "priority"
        · subst hpriority
          cases rest with
          | nil => exact last
          | cons next rest =>
            have hle := length_resolvePriority_le map next rest
            exact priority next rest (ih _ (by simp only [List.length_cons]; omega) _ rfl)
        · exact word first rest ⟨hpolicy, hpriority⟩ (ih rest.length (Nat.lt_succ_self _) rest rfl)

theorem canonicalizeNftHeader_eq (family : String) (words : List String) :
    canonicalizeNftHeader family words =
      if (headerLoop (NFT_PRIORITY_LANDMARKS family) words).2 then (headerLoop (NFT_PRIORITY_LANDMARKS family) words).1
      else (headerLoop (NFT_PRIORITY_LANDMARKS family) words).1 ++ ["policy", "accept"] := rfl

/-! ## The canonical form again -/

theorem headerLoop_head? (words : List String) : (headerLoop map words).1.head? = words.head? := by
  match words with
  | [] => rfl
  | word :: rest =>
    by_cases hpolicy : word = "policy"
    · rw [hpolicy, (headerLoop_policy map rest).1]
      rfl
    · by_cases hpriority : word = "priority"
      · subst hpriority
        cases rest with
        | nil => rfl
        | cons next rest =>
          rw [(headerLoop_priority map next rest).1]
          rfl
      · rw [(headerLoop_word map ⟨hpolicy, hpriority⟩ rest).1]
        rfl

/-- The word a priority is written as is written as itself again, in front of the canonical words behind it. -/
theorem resolvePriority_again (hmap : ∀ n : Int, map.lookup (toString n) = none) (next : String) (rest after : List String) :
    resolvePriority map (resolvePriority map next rest).1 ((headerLoop map (resolvePriority map next rest).2).1 ++ after) =
      ((resolvePriority map next rest).1, (headerLoop map (resolvePriority map next rest).2).1 ++ after) := by
  have hnone : ∀ {word : String}, map.lookup word = none → ∀ rest, resolvePriority map word rest = (word, rest) := by
    intro word hlookup rest
    rw [resolvePriority, hlookup]
  cases hlookup : map.lookup next with
  | none =>
    rw [hnone hlookup]
    exact hnone hlookup _
  | some base =>
    match rest with
    | [] =>
      simp only [resolvePriority, hlookup]
      exact hnone (hmap base) _
    | [word] =>
      simp only [resolvePriority, hlookup]
      exact hnone (hmap base) _
    | sign :: magnitude :: rest =>
      by_cases hsign : sign = "+" ∨ sign = "-"
      · cases hint : pyInt magnitude.toList with
        | some m =>
          have hp : resolvePriority map next (sign :: magnitude :: rest) = (toString (applyPriorityOffset base sign m), rest) := by
            simp only [resolvePriority, hlookup, if_pos hsign, hint]
          rw [hp]
          exact hnone (hmap _) _
        | none =>
          -- a malformed offset: its two words come out as they are
          have hp : ∀ rest, resolvePriority map next (sign :: magnitude :: rest) = (next, sign :: magnitude :: rest) := by
            intro rest
            simp only [resolvePriority, hlookup, if_pos hsign, hint]
          have hplain : sign ≠ "policy" ∧ sign ≠ "priority" := by
            rcases hsign with rfl | rfl <;> decide
          rw [hp, (headerLoop_word map hplain (magnitude :: rest)).1]
          obtain ⟨tail, htail⟩ : ∃ tail, (headerLoop map (magnitude :: rest)).1 = magnitude :: tail := by
            have hhead := headerLoop_head? map (magnitude :: rest)
            cases hout : (headerLoop map (magnitude :: rest)).1 with
            | nil =>
              rw [hout] at hhead
              cases hhead
            | cons first tail =>
              rw [hout] at hhead
              exact ⟨tail, congrArg (· :: tail) (Option.some.inj hhead)⟩
          rw [htail]
          exact hp _
      · have hp : resolvePriority map next (sign :: magnitude :: rest) = (toString base, sign :: magnitude :: rest) := by
          simp only [resolvePriority, hlookup, if_neg hsign]
        rw [hp]
        exact hnone (hmap base) _

/-- An offset comes to a number of its own. -/
theorem offsetPriority_eq_none (hmap : ∀ n : Int, map.lookup (toString n) = none) {next : String} {rest : List String}
    (h : (resolvePriority map next rest).1 = next) : offsetPriority map next rest = none := by
  rw [resolvePriority] at h
  unfold offsetPriority
  split
  · rename_i base sign magnitude rest hlookup
    split
    · rename_i hsign
      cases hint : pyInt magnitude.toList with
      | none => rfl
      | some m =>
        simp only [hlookup, if_pos hsign, hint] at h
        rw [← h, hmap] at hlookup
        cases hlookup
    · rfl
  · rfl

/-- Canonical words are read as they are; with the policy behind them that a header without one gets, that policy is read unless
the word `priority` is in front of it. -/
theorem headerLoop_again (hmap : ∀ n : Int, map.lookup (toString n) = none) (hnone : map.lookup "policy" = none)
    (words : List String) :
    headerLoop map (headerLoop map words).1 = headerLoop map words ∧
      (priorityOpen map words = true → (headerLoop map words).2 = false) ∧
      ((headerLoop map words).2 = false →
        headerLoop map ((headerLoop map words).1 ++ ["policy", "accept"]) =
          ((headerLoop map words).1 ++ ["policy", "accept"], !priorityOpen map words)) := by
  induction words using header_induction map with
  | nil => exact ⟨rfl, fun h => rfl, fun _ => by simp [headerLoop, priorityOpen, canonicalizeHeaderLoop, endsInPriority]⟩
  | policy rest ih =>
    obtain ⟨hloop, hopen, -⟩ := headerLoop_policy map rest
    rw [hloop, hopen]
    refine ⟨?_, fun (h : false = true) => absurd h Bool.false_ne_true, fun (h : true = false) => absurd h.symm Bool.false_ne_true⟩
    rw [(headerLoop_policy map _).1, ih.1]
  | last =>
    refine ⟨rfl, fun _ => rfl, fun _ => ?_⟩
    have hresolve : resolvePriority map "policy" ["accept"] = ("policy", ["accept"]) := by
      rw [resolvePriority, hnone]
    have hadded := (headerLoop_priority map "policy" ["accept"]).1
    rw [hresolve] at hadded
    exact hadded
  | priority next rest ih =>
    obtain ⟨hloop, hopen, -⟩ := headerLoop_priority map next rest
    obtain ⟨hagain, hfalse, hadded⟩ := ih
    have hself := resolvePriority_again map hmap next rest
    rw [hloop, hopen]
    refine ⟨?_, hfalse, fun h => ?_⟩
    · have hself' := hself []
      rw [List.append_nil] at hself'
      rw [(headerLoop_priority map _ _).1, hself', hagain]
    · rw [List.cons_append, List.cons_append, (headerLoop_priority map _ _).1, hself, hadded h]
  | word word rest hplain ih =>
    obtain ⟨hloop, hopen, -⟩ := headerLoop_word map hplain rest
    obtain ⟨hagain, hfalse, hadded⟩ := ih
    rw [hloop, hopen]
    refine ⟨?_, hfalse, fun h => ?_⟩
    · rw [(headerLoop_word map hplain _).1, hagain]
    · rw [List.cons_append, (headerLoop_word map hplain _).1, hadded h]

/-- No offset is left in canonical words, nor does the policy behind them make one. -/
theorem headerOffsets_again (hmap : ∀ n : Int, map.lookup (toString n) = none) (hnone : map.lookup "policy" = none)
    {after : List String} (hafter : after = [] ∨ after = ["policy", "accept"]) (words : List String) :
    headerOffsets map ((headerLoop map words).1 ++ after) = [] := by
  have hempty : headerOffsets map after = [] := by
    rcases hafter with rfl | rfl <;> simp [headerOffsets, offsetPriorities]
  induction words using header_induction map with
  | nil => exact hempty
  | policy rest ih => rw [(headerLoop_policy map rest).1, List.cons_append, (headerLoop_policy map _).2.2, ih]
  | last =>
    rcases hafter with rfl | rfl
    · rfl
    · have hresolve : resolvePriority map "policy" ["accept"] = ("policy", ["accept"]) := by
        rw [resolvePriority, hnone]
      have hoffsets := (headerLoop_priority map "policy" ["accept"]).2.2
      have hoffset : offsetPriority map "policy" ["accept"] = none := offsetPriority_eq_none map hmap (congrArg Prod.fst hresolve)
      rw [hresolve, hoffset] at hoffsets
      exact hoffsets
  | priority next rest ih =>
    have hself := resolvePriority_again map hmap next rest after
    have hoffset := offsetPriority_eq_none map hmap (show _ = (resolvePriority map next rest).1 by rw [hself])
    rw [(headerLoop_priority map next rest).1, List.cons_append, List.cons_append, (headerLoop_priority map _ _).2.2, hoffset, hself,
      ih]
    rfl
  | word word rest hplain ih => rw [(headerLoop_word map hplain rest).1, List.cons_append, (headerLoop_word map hplain _).2.2, ih]

end

theorem lookup_landmarks_policy (family : String) : (NFT_PRIORITY_LANDMARKS family).lookup "policy" = none := by
  unfold NFT_PRIORITY_LANDMARKS
  split
  · decide
  · split
    · decide
    · split <;> rfl

/-- The words of a canonical header are canonical unless the word `priority` was left open. -/
theorem canonicalizeNftHeader_again_iff (family : String) (words : List String) :
    canonicalizeNftHeader family (canonicalizeNftHeader family words) = canonicalizeNftHeader family words ↔
      priorityOpen (NFT_PRIORITY_LANDMARKS family) words = false := by
  obtain ⟨hagain, hfalse, hadded⟩ :=
    headerLoop_again _ (lookup_landmarks_toString family) (lookup_landmarks_policy family) words
  rw [canonicalizeNftHeader_eq family words]
  cases hpolicy : (headerLoop (NFT_PRIORITY_LANDMARKS family) words).2 with
  | true =>
    rw [if_pos rfl, canonicalizeNftHeader_eq, hagain, hpolicy, if_pos rfl]
    refine iff_of_true rfl ?_
    cases hopen : priorityOpen (NFT_PRIORITY_LANDMARKS family) words with
    | false => rfl
    | true =>
      rw [hfalse hopen] at hpolicy
      cases hpolicy
  | false =>
    rw [if_neg Bool.false_ne_true, canonicalizeNftHeader_eq, hadded hpolicy]
    cases priorityOpen (NFT_PRIORITY_LANDMARKS family) words with
    | false => exact iff_of_true rfl rfl
    | true =>
      refine iff_of_false (fun h => ?_) (fun h => by cases h)
      have hlength := congrArg List.length h
      simp only [Bool.not_true, Bool.false_eq_true, if_false, List.length_append, List.length_cons, List.length_nil] at hlength
      omega

/-! ## Texts of headers -/

/-- A word of a header. -/
def IsHeaderWord (word : String) : Prop := IsWord word.toList ∧ ';' ∉ word.toList

theorem isHeaderWord_of_mem {header word : String} (h : word ∈ headerWords header) : IsHeaderWord word := by
  obtain ⟨text, htext, rfl⟩ := List.mem_map.1 h
  rw [IsHeaderWord, String.toList_ofList]
  obtain ⟨hword, hmem⟩ := isWord_of_mem_pyWords htext
  refine ⟨hword, fun hsemicolon => ?_⟩
  obtain ⟨c, -, hc⟩ := List.mem_map.1 (hmem _ hsemicolon)
  split at hc
  · cases hc
  · exact ‹c ≠ ';'› hc

theorem isHeaderWord_of_all {word : String} (hne : word.toList ≠ [])
    (h : word.toList.all (fun c => !isPySpace c && c ≠ ';') = true) : IsHeaderWord word := by
  refine ⟨⟨hne, fun c hc => ?_⟩, fun hmem => ?_⟩
  · have := List.all_eq_true.1 h c hc
    simp only [Bool.and_eq_true, Bool.not_eq_true'] at this
    exact this.1
  · have := List.all_eq_true.1 h _ hmem
    simp at this

/-- The characters of a number's text. -/
theorem mem_toString_int {n : Int} {c : Char} (h : c ∈ (toString n).toList) : c = '-' ∨ c.isDigit = true := by
  have hnat : ∀ m : Nat, ∀ c ∈ m.repr.toList, c.isDigit = true := by
    intro m c hc
    rw [Nat.toList_repr] at hc
    exact Nat.isDigit_of_mem_toDigits (by decide) (by decide) hc
  rw [Int.toString_eq_repr, Int.repr_eq_if] at h
  split at h
  · exact .inr (hnat _ c h)
  · rw [String.toList_append] at h
    rcases List.mem_append.1 h with h | h
    · exact .inl (List.mem_singleton.1 h)
    · exact .inr (hnat _ c h)

theorem isHeaderWord_toString (n : Int) : IsHeaderWord (toString n) := by
  refine isHeaderWord_of_all ?_ (List.all_eq_true.2 fun c hc => ?_)
  · obtain ⟨c, hc, -⟩ := exists_isDigit_toString n
    exact List.ne_nil_of_mem hc
  · rcases mem_toString_int hc with rfl | hdigit
    · decide
    · have hrange : 48 ≤ c.toNat ∧ c.toNat ≤ 57 := by simpa [Char.isDigit, Char.le_def, UInt32.le_iff_toNat_le] using hdigit
      have hspace : isPySpace c = false := isPySpace_eq_false (by omega)
      have hne : c ≠ ';' := by
        rintro rfl
        revert hdigit
        decide
      simp [hspace, hne]

theorem isHeaderWord_resolvePriority (map : List (String × Int)) {next : String} {rest : List String}
    (h : ∀ word ∈ next :: rest, IsHeaderWord word) :
    IsHeaderWord (resolvePriority map next rest).1 ∧ ∀ word ∈ (resolvePriority map next rest).2, word ∈ rest := by
  have hnext := h next List.mem_cons_self
  unfold resolvePriority
  split
  · exact ⟨hnext, fun _ => id⟩
  · split
    · split
      · split
        · exact ⟨isHeaderWord_toString _, fun word hword => List.mem_cons_of_mem _ (List.mem_cons_of_mem _ hword)⟩
        · exact ⟨hnext, fun _ => id⟩
      · exact ⟨isHeaderWord_toString _, fun _ => id⟩
    · exact ⟨isHeaderWord_toString _, fun _ => id⟩

theorem isHeaderWord_headerLoop (map : List (String × Int)) {words : List String} (h : ∀ word ∈ words, IsHeaderWord word) :
    ∀ word ∈ (headerLoop map words).1, IsHeaderWord word := by
  induction words using header_induction map with
  | nil => exact fun _ hword => absurd hword List.not_mem_nil
  | policy rest ih =>
    rw [(headerLoop_policy map rest).1]
    exact List.forall_mem_cons.2 ⟨h _ List.mem_cons_self, ih (List.forall_mem_cons.1 h).2⟩
  | last => exact h
  | priority next rest ih =>
    obtain ⟨hword, hrest⟩ := List.forall_mem_cons.1 h
    obtain ⟨hnext, hsub⟩ := isHeaderWord_resolvePriority map hrest
    rw [(headerLoop_priority map next rest).1]
    refine List.forall_mem_cons.2 ⟨hword, List.forall_mem_cons.2 ⟨hnext, ih fun other hother => ?_⟩⟩
    exact hrest other (List.mem_cons_of_mem _ (hsub other hother))
  | word word rest hplain ih =>
    rw [(headerLoop_word map hplain rest).1]
    exact List.forall_mem_cons.2 ⟨h _ List.mem_cons_self, ih (List.forall_mem_cons.1 h).2⟩

theorem isHeaderWord_canonicalizeNftHeader {family : String} {words : List String} (h : ∀ word ∈ words, IsHeaderWord word) :
    ∀ word ∈ canonicalizeNftHeader family words, IsHeaderWord word := by
  have hloop := isHeaderWord_headerLoop (NFT_PRIORITY_LANDMARKS family) h
  rw [canonicalizeNftHeader_eq]
  split
  · exact hloop
  · intro word hword
    rcases List.mem_append.1 hword with hword | hword
    · exact hloop word hword
    · rcases List.mem_pair.1 hword with rfl | rfl <;> exact isHeaderWord_of_all (by decide) (by decide)

/-- Words are read back from their text. -/
theorem headerWords_intercalate {words : List String} (hwords : ∀ word ∈ words, IsHeaderWord word) :
    headerWords (String.intercalate " " words) = words := by
  have htexts : ∀ text ∈ words.map String.toList, IsWord text ∧ ';' ∉ text := by
    intro text htext
    obtain ⟨word, hword, rfl⟩ := List.mem_map.1 htext
    exact hwords word hword
  have hne : ∀ c ∈ List.intercalate [' '] (words.map String.toList), c ≠ ';' :=
    forall_mem_intercalate (by decide) fun text htext c hc heq => (htexts text htext).2 (heq ▸ hc)
  have hsame : (List.intercalate [' '] (words.map String.toList)).map (fun c => if c = ';' then ' ' else c) =
      List.intercalate [' '] (words.map String.toList) :=
    (List.map_congr_left fun c hc => if_neg (hne c hc)).trans (List.map_id _)
  have htext : " ".toList.intercalate (words.map String.toList) = List.intercalate [' '] (words.map String.toList) := rfl
  rw [headerWords, String.toList_intercalate, htext, hsame, pyWords_intercalate fun text htext => (htexts text htext).1, List.map_map]
  exact (List.map_congr_left fun word _ => String.ofList_toList).trans (List.map_id _)

/-- Canonical words have no offsets. -/
theorem offsetsFit_canonicalizeNftHeader (family : String) (words : List String) :
    OffsetsFit (NFT_PRIORITY_LANDMARKS family) (canonicalizeNftHeader family words) := by
  have hoffsets : ∀ after, after = [] ∨ after = ["policy", "accept"] →
      headerOffsets (NFT_PRIORITY_LANDMARKS family) ((headerLoop (NFT_PRIORITY_LANDMARKS family) words).1 ++ after) = [] :=
    fun after hafter => headerOffsets_again _ (lookup_landmarks_toString family) (lookup_landmarks_policy family) hafter words
  have hempty : headerOffsets (NFT_PRIORITY_LANDMARKS family) (canonicalizeNftHeader family words) = [] := by
    rw [canonicalizeNftHeader_eq]
    split
    · have hnil := hoffsets [] (.inl rfl)
      rwa [List.append_nil] at hnil
    · exact hoffsets _ (.inr rfl)
  intro n hn
  rw [hempty] at hn
  cases hn

/-- A header has a canonical form that is its own, unless it has no policy and ends in the word `priority`, or an offset comes to a
number that is too long to be written. -/
theorem canonicalizeHeaderText_again_iff (family header : String) :
    (∃ once, canonicalizeHeaderText family header = some once ∧ canonicalizeHeaderText family once = some once) ↔
      OffsetsFit (NFT_PRIORITY_LANDMARKS family) (headerWords header) ∧ ¬LeavesPriorityOpen family header := by
  rw [LeavesPriorityOpen, Bool.not_eq_true]
  by_cases hfit : OffsetsFit (NFT_PRIORITY_LANDMARKS family) (headerWords header)
  · have honce : canonicalizeHeaderText family header = some (" ".intercalate (canonicalizeNftHeader family (headerWords header))) := by
      rw [canonicalizeHeaderText, canonicalizeHeaderWords_eq, if_pos hfit]
      rfl
    have hwords : ∀ word ∈ canonicalizeNftHeader family (headerWords header), IsHeaderWord word :=
      isHeaderWord_canonicalizeNftHeader fun word hword => isHeaderWord_of_mem hword
    have htwice : canonicalizeHeaderText family (" ".intercalate (canonicalizeNftHeader family (headerWords header))) =
        some (" ".intercalate (canonicalizeNftHeader family (canonicalizeNftHeader family (headerWords header)))) := by
      rw [canonicalizeHeaderText, headerWords_intercalate hwords, canonicalizeHeaderWords_eq,
        if_pos (offsetsFit_canonicalizeNftHeader family (headerWords header))]
      rfl
    refine Iff.trans ?_ ((canonicalizeNftHeader_again_iff family (headerWords header)).trans (and_iff_right hfit).symm)
    constructor
    · rintro ⟨once, hfirst, hsecond⟩
      obtain rfl := Option.some.inj (honce.symm.trans hfirst)
      have htext := congrArg headerWords (Option.some.inj (htwice.symm.trans hsecond))
      rwa [headerWords_intercalate hwords, headerWords_intercalate (isHeaderWord_canonicalizeNftHeader hwords)] at htext
    · intro h
      exact ⟨_, honce, by rw [htwice, h]⟩
  · refine iff_of_false ?_ fun h => hfit h.1
    rintro ⟨once, hfirst, -⟩
    rw [canonicalizeHeaderText, canonicalizeHeaderWords_eq, if_neg hfit] at hfirst
    cases hfirst

/-! ## One priority on both sides -/

theorem pyStrip_eq_self {text : List Char} (hhead : ∀ c ∈ text.head?, isPySpace c = false)
    (hlast : ∀ c ∈ text.getLast?, isPySpace c = false) : pyStrip text = text := by
  have hdrop : text.dropWhile isPySpace = text := by
    cases text with
    | nil => rfl
    | cons c cs => rw [List.dropWhile_cons, hhead c rfl, if_neg Bool.false_ne_true]
  rw [pyStrip, hdrop, pyRstrip, List.rdropWhile_eq_self_iff]
  intro hne
  rw [hlast _ (List.getLast?_eq_some_getLast hne)]
  exact Bool.false_ne_true

theorem isPySpace_of_isDigit {c : Char} (h : c.isDigit = true) : isPySpace c = false := by
  have hrange : 48 ≤ c.toNat ∧ c.toNat ≤ 57 := by simpa [Char.isDigit, Char.le_def, UInt32.le_iff_toNat_le] using h
  exact isPySpace_eq_false (by omega)

theorem range_of_isAlpha {c : Char} (h : c.isAlpha = true) : (65 ≤ c.toNat ∧ c.toNat ≤ 90) ∨ (97 ≤ c.toNat ∧ c.toNat ≤ 122) := by
  delta Char.isAlpha Char.isUpper Char.isLower at h
  simpa [Char.le_def, UInt32.le_iff_toNat_le] using h

theorem isPySpace_of_isAlpha {c : Char} (h : c.isAlpha = true) : isPySpace c = false := by
  have hrange := range_of_isAlpha h
  exact isPySpace_eq_false (by omega)

theorem isPySpace_of_mem_toDigits {n : Nat} : ∀ c ∈ Nat.toDigits 10 n, isPySpace c = false := fun _ hc =>
  isPySpace_of_isDigit (Nat.isDigit_of_mem_toDigits (b := 10) (by decide) (by decide) hc)

theorem dropWhile_toDigits (n : Nat) : (Nat.toDigits 10 n).dropWhile isPySpace = Nat.toDigits 10 n := by
  obtain ⟨c, cs, hcs⟩ := List.exists_cons_of_ne_nil (Nat.toDigits_ne_nil (n := n) (b := 10))
  have hspace := isPySpace_of_mem_toDigits (n := n) c (hcs ▸ List.mem_cons_self)
  rw [hcs]
  exact List.dropWhile_cons_of_neg (by rw [hspace]; exact Bool.false_ne_true)

theorem isPriorityInt_toString (n : Int) : isPriorityInt (toString n).toList = true := by
  rw [toList_toString_int]
  split
  · have huint := isAsciiUint_toDigits n.toNat
    unfold isPriorityInt
    split
    · rename_i heq
      rw [heq] at huint
      cases huint
    · rename_i heq
      rw [heq] at huint
      cases huint
    · exact huint
  · exact isAsciiUint_toDigits _

theorem toString_int_injective {n m : Int} (h : toString n = toString m) : n = m := by
  have hlist := congrArg String.toList h
  have hminus : ∀ k l : Nat, Nat.toDigits 10 k ≠ '-' :: Nat.toDigits 10 l := fun k l heq => by
    have hdigit := Nat.isDigit_of_mem_toDigits (b := 10) (n := k) (by decide) (by decide) (heq ▸ List.mem_cons_self)
    cases hdigit
  have hinj : ∀ k l : Nat, Nat.toDigits 10 k = Nat.toDigits 10 l → k = l := fun k l heq => by
    rw [← uintValue_toDigits (by decide : 1 < 10) (by decide) k, heq, uintValue_toDigits (by decide) (by decide)]
  rw [toList_toString_int, toList_toString_int] at hlist
  split at hlist <;> split at hlist
  · have := hinj _ _ hlist
    omega
  · exact absurd hlist (hminus _ _)
  · exact absurd hlist.symm (hminus _ _)
  · have := hinj _ _ (List.cons.inj hlist).2
    omega

/-- Numbers of ten digits are read and written. -/
theorem digitCount_le {n : Int} (h : n.natAbs < 10 ^ 10) : digitCount n ≤ INT_MAX_STR_DIGITS :=
  Nat.le_trans ((Nat.length_toDigits_le_iff (by decide) (by decide)).2 h) (by decide)

theorem digitCount_of_inRange {n : Int} (h : InPriorityRange n) : digitCount n ≤ INT_MAX_STR_DIGITS := by
  obtain ⟨hlow, hhigh⟩ := h
  exact digitCount_le (by omega)

theorem landmarks_name_eq_nftName (family : Family) :
    NFT_PRIORITY_LANDMARKS family.name = NFT_PRIORITY_LANDMARKS family.nftName := by cases family <;> rfl

/-- The names of landmarks are of letters, and their numbers small. -/
theorem landmark_of_lookup {family name : String} {base : Int} (h : (NFT_PRIORITY_LANDMARKS family).lookup name = some base) :
    name.toList ≠ [] ∧ (∀ c ∈ name.toList, c.isAlpha = true) ∧ base.natAbs ≤ 300 := by
  have hall : ∀ p ∈ NFT_PRIORITY_LANDMARKS family,
      (!p.1.toList.isEmpty && (p.1.toList.all Char.isAlpha && decide (p.2.natAbs ≤ 300))) = true := by
    unfold NFT_PRIORITY_LANDMARKS
    split
    · decide
    · split
      · decide
      · split <;> decide
  obtain ⟨before, after, hsplit, -⟩ := List.lookup_eq_some_iff.1 h
  have hname := hall (name, base) (hsplit ▸ List.mem_append_right _ List.mem_cons_self)
  rw [Bool.and_eq_true, Bool.not_eq_true', List.isEmpty_eq_false_iff, Bool.and_eq_true, List.all_eq_true, decide_eq_true_iff] at hname
  exact hname

/-- The offset of a priority is not much larger than the priority. -/
theorem length_magnitude_le {family name : String} {base : Int} (h : (NFT_PRIORITY_LANDMARKS family).lookup name = some base)
    {sign : String} {magnitude : Nat} (hrange : InPriorityRange (applyPriorityOffset base sign magnitude)) :
    (Nat.toDigits 10 magnitude).length ≤ INT_MAX_STR_DIGITS := by
  have hbase := (landmark_of_lookup h).2.2
  obtain ⟨hlow, hhigh⟩ := hrange
  have hsmall : magnitude < 10 ^ 10 := by
    unfold applyPriorityOffset at hlow hhigh
    split at hlow
    · rename_i hsign
      rw [if_pos hsign] at hhigh
      omega
    · omega
  exact digitCount_le (n := magnitude) hsmall

theorem not_isPriorityInt_of_letter {text : List Char} {c : Char} (h : text.head? = some c) (hc : c.isAlpha = true) :
    isPriorityInt text = false := by
  have hne : c ≠ '+' ∧ c ≠ '-' ∧ c.isDigit = false := by
    refine ⟨?_, ?_, ?_⟩
    · rintro rfl
      cases hc
    · rintro rfl
      cases hc
    · rw [← Bool.not_eq_true]
      intro hdigit
      have hrange : 48 ≤ c.toNat ∧ c.toNat ≤ 57 := by simpa [Char.isDigit, Char.le_def, UInt32.le_iff_toNat_le] using hdigit
      have hletter := range_of_isAlpha hc
      omega
  cases text with
  | nil => cases h
  | cons d text =>
    obtain rfl : d = c := Option.some.inj h
    have huint : isAsciiUint (d :: text) = false := by simp [isAsciiUint, hne.2.2]
    unfold isPriorityInt
    split
    · exact absurd (List.head_eq_of_cons_eq ‹_›) hne.1
    · exact absurd (List.head_eq_of_cons_eq ‹_›) hne.2.1
    · exact huint

/-- A landmark and what follows it. -/
theorem priorityLandmark_append {name rest : List Char} (hne : name ≠ []) (hname : ∀ c ∈ name, c.isAlpha = true) :
    priorityLandmark (name ++ ' ' :: rest) =
      match rest.dropWhile isPySpace with
      | [] => some (String.ofList name, none)
      | sign :: offset =>
        if (sign = '+' ∨ sign = '-') ∧ isAsciiUint (offset.dropWhile isPySpace) then
          some (String.ofList name, some (String.ofList [sign], offset.dropWhile isPySpace))
        else none := by
  have htake : (name ++ ' ' :: rest).takeWhile Char.isAlpha = name := by
    rw [List.takeWhile_append_of_pos hname, List.takeWhile_cons_of_neg (by decide), List.append_nil]
  have hdrop : (name ++ ' ' :: rest).dropWhile Char.isAlpha = ' ' :: rest := by
    rw [List.dropWhile_append_of_pos hname, List.dropWhile_cons_of_neg (by decide)]
  have hblank : (' ' :: rest).dropWhile isPySpace = rest.dropWhile isPySpace := List.dropWhile_cons_of_pos (by decide)
  rw [priorityLandmark, htake, hdrop, hblank, if_neg hne]

/-- The parser reads every spelling of nft's as the priority. -/
theorem resolveChainPriority_spelling {family : Family} {n : Int} {words : List String} (h : PrioritySpelling family n words)
    (hrange : InPriorityRange n) : resolveChainPriority family.name (String.intercalate " " words) = some n := by
  cases h with
  | number =>
    have hstrip : pyStrip (toString n).toList = (toString n).toList := by
      have hword := (isHeaderWord_toString n).1
      exact pyStrip_eq_self (fun c hc => hword.2 c (List.mem_of_mem_head? hc)) fun c hc => hword.2 c (List.mem_of_mem_getLast? hc)
    simp only [resolveChainPriority, String.intercalate_singleton, hstrip, isPriorityInt_toString, if_true,
      pyInt_toString (digitCount_of_inRange hrange), Option.bind_some, ensurePriorityInRange, if_pos hrange]
  | @landmark name base hlookup =>
    obtain ⟨hne, hname, -⟩ := landmark_of_lookup hlookup
    have hspace : ∀ c ∈ name.toList, isPySpace c = false := fun c hc => isPySpace_of_isAlpha (hname c hc)
    have hstrip : pyStrip name.toList = name.toList :=
      pyStrip_eq_self (fun c hc => hspace c (List.mem_of_mem_head? hc)) fun c hc => hspace c (List.mem_of_mem_getLast? hc)
    obtain ⟨c, cs, hcs⟩ := List.exists_cons_of_ne_nil hne
    have hint : isPriorityInt name.toList = false :=
      not_isPriorityInt_of_letter (by rw [hcs]; rfl) (hname c (hcs ▸ List.mem_cons_self))
    have hlandmark : priorityLandmark name.toList = some (name, none) := by
      rw [priorityLandmark, List.takeWhile_eq_self_iff.2 hname, List.dropWhile_eq_nil_iff.2 hname, if_neg hne, String.ofList_toList]
      rfl
    simp only [resolveChainPriority, String.intercalate_singleton, hstrip, hint, Bool.false_eq_true, if_false, hlandmark, landmarks_name_eq_nftName, hlookup,
      Option.bind_eq_bind, Option.bind_some]
  | @offset name base hlookup sign hsign magnitude =>
    obtain ⟨hne, hname, -⟩ := landmark_of_lookup hlookup
    obtain ⟨c, cs, hcs⟩ := List.exists_cons_of_ne_nil hne
    obtain ⟨d, hd, rfl⟩ : ∃ d : Char, (d = '+' ∨ d = '-') ∧ sign = String.ofList [d] := by
      rcases hsign with rfl | rfl
      · exact ⟨'+', .inl rfl, rfl⟩
      · exact ⟨'-', .inr rfl, rfl⟩
    have htext : (String.intercalate " " [name, String.ofList [d], toString magnitude]).toList =
        name.toList ++ ' ' :: d :: ' ' :: Nat.toDigits 10 magnitude := by
      rw [String.toList_intercalate]
      simp [List.intercalate_cons_cons, Nat.toList_repr, Nat.toString_eq_repr]
    have hstrip : pyStrip (name.toList ++ ' ' :: d :: ' ' :: Nat.toDigits 10 magnitude) =
        name.toList ++ ' ' :: d :: ' ' :: Nat.toDigits 10 magnitude := by
      refine pyStrip_eq_self (fun x hx => ?_) fun x hx => ?_
      · rw [hcs] at hx
        obtain rfl : c = x := Option.some.inj hx
        exact isPySpace_of_isAlpha (hname c (hcs ▸ List.mem_cons_self))
      · have hsplit : name.toList ++ ' ' :: d :: ' ' :: Nat.toDigits 10 magnitude =
            (name.toList ++ [' ', d, ' ']) ++ Nat.toDigits 10 magnitude := by simp
        rw [hsplit, List.getLast?_append_of_ne_nil _ Nat.toDigits_ne_nil] at hx
        exact isPySpace_of_mem_toDigits x (List.mem_of_mem_getLast? hx)
    have hint : isPriorityInt (name.toList ++ ' ' :: d :: ' ' :: Nat.toDigits 10 magnitude) = false :=
      not_isPriorityInt_of_letter (by rw [hcs]; rfl) (hname c (hcs ▸ List.mem_cons_self))
    have hsignspace : isPySpace d = false := by
      rcases hd with rfl | rfl <;> decide
    have hdrop : (d :: ' ' :: Nat.toDigits 10 magnitude).dropWhile isPySpace = d :: ' ' :: Nat.toDigits 10 magnitude :=
      List.dropWhile_cons_of_neg (by rw [hsignspace]; exact Bool.false_ne_true)
    have hdrop' : (' ' :: Nat.toDigits 10 magnitude).dropWhile isPySpace = Nat.toDigits 10 magnitude := by
      rw [List.dropWhile_cons_of_pos (by decide), dropWhile_toDigits]
    have hlandmark : priorityLandmark (name.toList ++ ' ' :: d :: ' ' :: Nat.toDigits 10 magnitude) =
        some (name, some (String.ofList [d], Nat.toDigits 10 magnitude)) := by
      rw [priorityLandmark_append hne hname, hdrop]
      simp only [hdrop', hd, isAsciiUint_toDigits, and_self, if_true, String.ofList_toList]
    simp only [resolveChainPriority, htext, hstrip, hint, Bool.false_eq_true, if_false, hlandmark, landmarks_name_eq_nftName, hlookup,
      Option.bind_eq_bind, Option.bind_some, pyInt_toDigits (length_magnitude_le hlookup hrange), ensurePriorityInRange, if_pos hrange]

/-- A word that is no keyword of a header. -/
def IsPlainWord (word : String) : Prop := word ≠ "policy" ∧ word ≠ "priority"

theorem headerLoop_append (map : List (String × Int)) {before : List String} (h : ∀ word ∈ before, IsPlainWord word)
    (rest : List String) :
    headerLoop map (before ++ rest) = (before ++ (headerLoop map rest).1, (headerLoop map rest).2) ∧
      headerOffsets map (before ++ rest) = headerOffsets map rest := by
  induction before with
  | nil => exact ⟨rfl, rfl⟩
  | cons word before ih =>
    obtain ⟨hword, hbefore⟩ := List.forall_mem_cons.1 h
    obtain ⟨hloop, -, hoffsets⟩ := headerLoop_word map hword (before ++ rest)
    obtain ⟨hloop', hoffsets'⟩ := ih hbefore
    exact ⟨by rw [List.cons_append, hloop, hloop']; rfl, by rw [List.cons_append, hoffsets, hoffsets']⟩

/-- The words behind a priority do not go on with an offset. -/
def NoOffset (after : List String) : Prop := ∀ word ∈ after.head?, word ≠ "+" ∧ word ≠ "-"

/-- The canonical form reads every spelling of nft's as the text of the priority. -/
theorem writePriority_spelling {family : Family} {n : Int} {words : List String} (h : PrioritySpelling family n words)
    (hrange : InPriorityRange n) {after : List String} (hafter : NoOffset after) :
    ∃ next rest, words ++ after = next :: rest ∧
      writePriority (NFT_PRIORITY_LANDMARKS family.nftName) next rest = some (toString n, after) := by
  cases h with
  | number =>
    refine ⟨toString n, after, rfl, ?_⟩
    rw [writePriority, lookup_landmarks_toString]
  | @landmark name base hlookup =>
    refine ⟨name, after, rfl, ?_⟩
    match after, hafter with
    | [], _ => simp only [writePriority, hlookup]
    | [word], _ => simp only [writePriority, hlookup]
    | word :: magnitude :: rest, hafter =>
      have hword := hafter word rfl
      simp only [writePriority, hlookup, hword, or_self, if_false]
  | @offset name base hlookup sign hsign magnitude =>
    refine ⟨name, sign :: toString magnitude :: after, rfl, ?_⟩
    have htext : (toString magnitude).toList = Nat.toDigits 10 magnitude := by rw [Nat.toString_eq_repr, Nat.toList_repr]
    simp only [writePriority, hlookup, if_pos hsign, htext, pyInt_toDigits (length_magnitude_le hlookup hrange), pyStr,
      if_pos (digitCount_of_inRange hrange), Option.map_some]

/-- A header with a spelling of nft's is the one with the number. -/
theorem canonicalizeHeaderWords_spelling {family : Family} {n : Int} {words : List String} (h : PrioritySpelling family n words)
    (hrange : InPriorityRange n) {before after : List String} (hbefore : ∀ word ∈ before, IsPlainWord word)
    (hafter : NoOffset after) :
    canonicalizeHeaderWords family.nftName (before ++ "priority" :: (words ++ after)) =
      canonicalizeHeaderWords family.nftName (before ++ "priority" :: toString n :: after) := by
  have hstep : ∀ spelling, PrioritySpelling family n spelling →
      headerLoop (NFT_PRIORITY_LANDMARKS family.nftName) ("priority" :: (spelling ++ after)) =
          ("priority" :: toString n :: (headerLoop (NFT_PRIORITY_LANDMARKS family.nftName) after).1,
            (headerLoop (NFT_PRIORITY_LANDMARKS family.nftName) after).2) ∧
        (OffsetsFit (NFT_PRIORITY_LANDMARKS family.nftName) ("priority" :: (spelling ++ after)) ↔
          OffsetsFit (NFT_PRIORITY_LANDMARKS family.nftName) after) := by
    intro spelling hspelling
    obtain ⟨next, rest, hsplit, hwrite⟩ := writePriority_spelling hspelling hrange hafter
    rw [writePriority_eq] at hwrite
    split at hwrite
    · rename_i hfit
      have hresolve := Option.some.inj hwrite
      obtain ⟨hloop, -, hoffsets⟩ := headerLoop_priority (NFT_PRIORITY_LANDMARKS family.nftName) next rest
      rw [hresolve] at hloop hoffsets
      rw [hsplit]
      refine ⟨hloop, ?_⟩
      rw [OffsetsFit, hoffsets, List.forall_mem_append]
      exact and_iff_right fun k hk => hfit k (Option.mem_toList.1 hk)
    · cases hwrite
  obtain ⟨hloop, hfit⟩ := hstep words h
  obtain ⟨hloop', hfit'⟩ := hstep [toString n] (.number n)
  have hsame : ∀ rest, OffsetsFit (NFT_PRIORITY_LANDMARKS family.nftName) (before ++ rest) ↔
      OffsetsFit (NFT_PRIORITY_LANDMARKS family.nftName) rest := fun rest => by
    rw [OffsetsFit, OffsetsFit, (headerLoop_append _ hbefore rest).2]
  rw [List.singleton_append] at hloop' hfit'
  rw [canonicalizeHeaderWords_eq, canonicalizeHeaderWords_eq, canonicalizeNftHeader_eq, canonicalizeNftHeader_eq,
    (headerLoop_append _ hbefore _).1, (headerLoop_append _ hbefore _).1, hloop, hloop']
  simp only [hsame, hfit, hfit']

/-- Headers of different priorities are different. -/
theorem priority_eq_of_canonicalizeHeaderWords_eq {family : Family} {n m : Int} {before after after' canonical : List String}
    (hbefore : ∀ word ∈ before, IsPlainWord word)
    (hn : canonicalizeHeaderWords family.nftName (before ++ "priority" :: toString n :: after) = some canonical)
    (hm : canonicalizeHeaderWords family.nftName (before ++ "priority" :: toString m :: after') = some canonical) : n = m := by
  have hform : ∀ (n : Int) (after : List String),
      canonicalizeHeaderWords family.nftName (before ++ "priority" :: toString n :: after) = some canonical →
        ∃ rest, canonical = before ++ "priority" :: toString n :: rest := by
    intro n after hcanonical
    have hnumber : resolvePriority (NFT_PRIORITY_LANDMARKS family.nftName) (toString n) after = (toString n, after) := by
      rw [resolvePriority, lookup_landmarks_toString]
    rw [canonicalizeHeaderWords_eq, canonicalizeNftHeader_eq, (headerLoop_append _ hbefore _).1,
      (headerLoop_priority _ (toString n) after).1, hnumber] at hcanonical
    obtain ⟨-, hcanonical⟩ := Option.ite_none_right_eq_some.1 hcanonical
    have hwords := Option.some.inj hcanonical
    split at hwords
    · exact ⟨_, hwords.symm⟩
    · exact ⟨_, hwords.symm.trans (List.append_assoc _ _ _)⟩
  obtain ⟨rest, hrest⟩ := hform n after hn
  obtain ⟨rest', hrest'⟩ := hform m after' hm
  have htail := List.append_cancel_left (hrest.symm.trans hrest')
  exact toString_int_injective (List.cons.inj (List.cons.inj htail).2).1

/-- Both sides read every spelling of a priority as that number, so that headers compare as equal exactly when their priorities are
equal; and the canonical form of a header is its own, unless the header has no policy and ends in the word `priority`, or has none
because an offset comes to a number that is too long to be written. -/
theorem chain_priorities_agree (family : Family) :
    (∀ (n : Int) words, PrioritySpelling family n words → InPriorityRange n →
      resolveChainPriority family.name (String.intercalate " " words) = some n ∧
        ∀ before after, (∀ word ∈ before, IsPlainWord word) → NoOffset after →
          canonicalizeHeaderWords family.nftName (before ++ "priority" :: (words ++ after)) =
            canonicalizeHeaderWords family.nftName (before ++ "priority" :: toString n :: after)) ∧
      (∀ (n m : Int) before after after' canonical, (∀ word ∈ before, IsPlainWord word) →
        canonicalizeHeaderWords family.nftName (before ++ "priority" :: toString n :: after) = some canonical →
          canonicalizeHeaderWords family.nftName (before ++ "priority" :: toString m :: after') = some canonical → n = m) ∧
      ∀ header, (∃ once, canonicalizeHeaderText family.nftName header = some once ∧
          canonicalizeHeaderText family.nftName once = some once) ↔
        OffsetsFit (NFT_PRIORITY_LANDMARKS family.nftName) (headerWords header) ∧ ¬LeavesPriorityOpen family.nftName header := by
  refine ⟨fun n words h hrange => ⟨resolveChainPriority_spelling h hrange, fun before after hbefore hafter => ?_⟩,
    fun n m before after after' canonical hbefore => priority_eq_of_canonicalizeHeaderWords_eq hbefore,
    canonicalizeHeaderText_again_iff family.nftName⟩
  exact canonicalizeHeaderWords_spelling h hrange hbefore hafter

/-- The policy that is added to a header without one is taken for its priority. -/
theorem chain_header_again_grows :
    canonicalizeHeaderText "ip" "type filter hook input priority" = some "type filter hook input priority policy accept" ∧
      canonicalizeHeaderText "ip" "type filter hook input priority policy accept" =
        some "type filter hook input priority policy accept policy accept" := by
  decide +kernel

end Ferm
