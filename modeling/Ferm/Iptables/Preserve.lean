import Ferm.Iptables.SaveReadback

/-!
# Preserved chains

What `@preserve` copies from the ruleset read before: the line of each marked chain and its rules. The ruleset is given by its
tables, chains and rules, as `iptables-save` writes them.
-/

namespace Ferm

/-! ## A dump -/

/-- A chain as `iptables-save` lists it: its name, and its policy and counters. -/
structure DumpChain where
  name : String
  rest : String
  deriving DecidableEq, Repr

/-- A rule as `iptables-save` lists it: its chain, and its options with the blank before them. A bare rule has none. -/
structure DumpRule where
  chain : String
  options : String
  deriving DecidableEq, Repr

/-- A table of a dump, and the comments before it. -/
structure DumpTable where
  comments : List String
  name : String
  chains : List DumpChain
  rules : List DumpRule
  deriving DecidableEq, Repr

/-- A dump of `iptables-save`. -/
structure Dump where
  tables : List DumpTable
  comments : List String
  deriving DecidableEq, Repr

/-- The line of a chain. -/
def DumpChain.line (c : DumpChain) : List Char := ':' :: (c.name.toList ++ ' ' :: c.rest.toList)

/-- The line of a rule. -/
def DumpRule.line (r : DumpRule) : List Char := "-A ".toList ++ (r.chain.toList ++ r.options.toList)

/-- The lines between a table's header and its commit. -/
def DumpTable.bodyLines (t : DumpTable) : List (List Char) := t.chains.map DumpChain.line ++ t.rules.map DumpRule.line

/-- The lines of a table. -/
def DumpTable.lines (t : DumpTable) : List (List Char) :=
  t.comments.map String.toList ++ ('*' :: t.name.toList) :: (t.bodyLines ++ ["COMMIT".toList])

/-- The lines of a dump. -/
def Dump.lines (d : Dump) : List (List Char) := d.tables.flatMap DumpTable.lines ++ d.comments.map String.toList

/-- The text of a dump. -/
def Dump.text (d : Dump) : String := String.ofList (endLines d.lines)

/-- A comment is one line. -/
def IsDumpComment (comment : String) : Prop := comment.toList.head? = some '#' ∧ '\n' ∉ comment.toList

/-- A table as `iptables-save` writes it: in its name no sign that means something else in a pattern or in a dump, names of chains that
a blank ends, one line for every comment, chain and rule, each chain once. -/
structure DumpTable.WellFormed (t : DumpTable) : Prop where
  comments : ∀ comment ∈ t.comments, IsDumpComment comment
  name : ∀ c ∈ t.name.toList, c ≠ '+' ∧ c ≠ '.' ∧ c ≠ ':' ∧ SaveSearch.isSpace c = false
  chains : ∀ c ∈ t.chains, IsSavedName c.name.toList ∧ '\n' ∉ c.rest.toList
  nodup : (t.chains.map DumpChain.name).Nodup
  rules : ∀ r ∈ t.rules, IsSavedName r.chain.toList ∧ BeginsBlank r.options.toList ∧ '\n' ∉ r.options.toList

/-- A dump as `iptables-save` writes it. -/
structure Dump.WellFormed (d : Dump) : Prop where
  tables : ∀ t ∈ d.tables, t.WellFormed
  comments : ∀ comment ∈ d.comments, IsDumpComment comment

/-! ## Texts of lines -/

namespace SaveSearch

/-- After lines that are ended, lines start where they start in what follows. -/
theorem lineStart_endLines_add (lines : List (List Char)) (text : List Char) (i : Nat) :
    lineStart (endLines lines ++ text) ((endLines lines).length + i) = lineStart text i := by
  cases i with
  | zero =>
    rcases List.eq_nil_or_concat lines with rfl | ⟨lines, line, rfl⟩
    · rfl
    · have hends : endLines (lines.concat line) = (endLines lines ++ line) ++ ['\n'] := by
        rw [List.concat_eq_append, endLines_append, endLines_cons, List.append_assoc]
        rfl
      rw [lineStart, hends, Nat.add_zero, List.length_append, List.length_singleton, Nat.add_sub_cancel, List.append_assoc,
        List.getElem?_append_right (Nat.le_refl _), Nat.sub_self]
      simp [lineStart]
  | succ i =>
    rw [lineStart, lineStart, Nat.add_succ_sub_one, List.getElem?_append_right (Nat.le_add_right _ _), Nat.add_sub_cancel_left,
      Nat.add_succ_sub_one]
    simp

/-- Where a line starts before the end of a text of lines, one of them stands. -/
theorem exists_line_of_lineStart {lines : List (List Char)} (h : ∀ line ∈ lines, '\n' ∉ line) {text : List Char} {i : Nat}
    (hlt : i < (endLines lines).length) (hstart : lineStart (endLines lines ++ text) i = true) :
    ∃ line ∈ lines, ∃ rest, (endLines lines ++ text).drop i = line ++ '\n' :: rest := by
  induction lines generalizing i with
  | nil => exact absurd hlt (Nat.not_lt_zero _)
  | cons line lines ih =>
    have hends : endLines (line :: lines) ++ text = endLines [line] ++ (endLines lines ++ text) := by
      rw [← List.append_assoc, ← endLines_append, List.singleton_append]
    have hone : endLines [line] = line ++ ['\n'] := endLines_cons line []
    rw [hends] at hstart ⊢
    rcases Nat.lt_or_ge i (endLines [line]).length with hi | hi
    · cases i with
      | zero =>
        refine ⟨line, List.mem_cons_self, endLines lines ++ text, ?_⟩
        rw [List.drop_zero, hone, List.append_assoc]
        rfl
      | succ i =>
        rw [hone, List.length_append, List.length_singleton, Nat.add_lt_add_iff_right] at hi
        have hbreak : (endLines [line] ++ (endLines lines ++ text))[i]? = some '\n' := by simpa [lineStart] using hstart
        rw [hone, List.append_assoc, List.getElem?_append_left hi] at hbreak
        exact absurd (List.mem_of_getElem? hbreak) (h line List.mem_cons_self)
    · -- what starts behind the first line starts among the further ones
      obtain ⟨j, rfl⟩ := Nat.exists_eq_add_of_le hi
      rw [lineStart_endLines_add] at hstart
      rw [show line :: lines = [line] ++ lines from rfl, endLines_append, List.length_append] at hlt
      obtain ⟨line', hline', hrest⟩ := ih (fun l hl => h l (List.mem_cons_of_mem _ hl)) (Nat.lt_of_add_lt_add_left hlt) hstart
      rw [List.drop_length_add_append]
      exact ⟨line', List.mem_cons_of_mem _ hline', hrest⟩

/-! ## Finding a table -/

/-- A name without a quantifier and without a dot is its own pattern. -/
theorem patternItems_literal {name : List Char} (h : ∀ c ∈ name, c ≠ '+' ∧ c ≠ '.') (item : PatternItem) (items : List PatternItem) :
    patternItems (item :: items) name = some ((item :: items).reverse ++ name.map fun c => ⟨some c, .once⟩) := by
  induction name generalizing item items with
  | nil => rw [patternItems, List.map_nil, List.append_nil]
  | cons c name ih =>
    have hc := h c List.mem_cons_self
    have hrest := ih (fun c' hc' => h c' (List.mem_cons_of_mem _ hc')) ⟨some c, .once⟩ (item :: items)
    rw [patternItems, if_neg hc.1, if_neg hc.2, hrest, @List.reverse_cons _ _ (item :: items), List.append_assoc]
    rfl

/-- Characters as a pattern match where the text begins with them. -/
theorem matchLengths_literal (name text : List Char) :
    matchLengths (name.map fun c => ⟨some c, .once⟩) text = if name.isPrefixOf text then [name.length] else [] := by
  induction name generalizing text with
  | nil => rfl
  | cons c name ih =>
    cases text with
    | nil => rfl
    | cons d text =>
      by_cases hc : c = d
      · subst hc
        simp only [List.map_cons, matchLengths, PatternItem.accepts, Option.all_some, List.takeWhile_cons, decide_true, if_true,
          List.length_cons, Nat.zero_lt_succ, List.flatMap_cons, List.flatMap_nil, List.append_nil, List.drop_succ_cons, List.drop_zero,
          ih, List.isPrefixOf_cons_cons_self]
        split
        · rw [List.map_singleton, Nat.add_comm]
        · rfl
      · simp only [List.map_cons, matchLengths, PatternItem.accepts, Option.all_some, List.takeWhile_cons, decide_eq_true_eq, if_neg hc,
          List.length_nil, Nat.lt_irrefl, if_false, List.flatMap_nil, List.isPrefixOf_cons_cons, beq_eq_false_iff_ne.2 hc, Bool.false_and,
          Bool.false_eq_true]

/-- The first number of a range with a result. -/
theorem findSome?_range {α : Type} {f : Nat → Option α} {n i : Nat} (hi : i < n) (hnone : ∀ j < i, f j = none) {a : α}
    (h : f i = some a) : (List.range n).findSome? f = some a := by
  obtain ⟨k, rfl⟩ := Nat.exists_eq_add_of_lt hi
  have hbefore : (List.range i).findSome? f = none := List.findSome?_eq_none_iff.2 fun j hj => hnone j (List.mem_range.1 hj)
  rw [Nat.add_assoc, List.range_add, List.findSome?_append, hbefore, Option.none_or, List.range_succ_eq_map, List.map_cons,
    List.findSome?_cons, Nat.add_zero, h]

theorem findSome?_reverse_range {α : Type} {f : Nat → Option α} {n : Nat} {a : α} (h : f n = some a) :
    (List.range (n + 1)).reverse.findSome? f = some a := by
  rw [List.range_succ, List.reverse_append, List.reverse_singleton, List.singleton_append, List.findSome?_cons, h]

/-- What has no break and stands before a line's break stands in the line. -/
theorem prefix_of_prefix_append_break {a line rest : List Char} (ha : '\n' ∉ a) (h : a <+: line ++ '\n' :: rest) : a <+: line := by
  rcases List.prefix_or_prefix_of_prefix h (List.prefix_append line _) with h' | ⟨further, rfl⟩
  · exact h'
  · cases further with
    | nil => exact ⟨[], by simp⟩
    | cons c further =>
      have hc : c = '\n' := (List.cons_prefix_cons.1 ((List.prefix_append_right_inj line).1 h)).1
      exact absurd (List.mem_append_right _ (hc ▸ List.mem_cons_self)) ha

/-- The lines of a table's body are chains and rules. -/
def IsBodyLine (line : List Char) : Prop := '\n' ∉ line ∧ (line.head? = some ':' ∨ line.head? = some '-')

theorem IsBodyLine.not_commit {line rest : List Char} (h : IsBodyLine line) :
    "COMMIT".toList.isPrefixOf (line ++ '\n' :: rest) = false := by
  rcases line with _ | ⟨c, line⟩
  · exact absurd h.2 (by simp)
  · rw [Bool.eq_false_iff, ne_eq, List.isPrefixOf_iff_prefix]
    intro hprefix
    obtain rfl : 'C' = c := (List.cons_prefix_cons.1 hprefix).1
    exact absurd h.2 (by simp)

/-- From within a header's line, or from its end, the first commit is the one that ends the body after it. -/
theorem commitFrom_endLines {before body after : List (List Char)} {header : List Char} (hheader : '\n' ∉ header)
    (hbody : ∀ line ∈ body, IsBodyLine line) {i : Nat} (hpos : 0 < i) (hle : i ≤ header.length + 1) :
    commitFrom (endLines (before ++ header :: (body ++ "COMMIT".toList :: after))) ((endLines before).length + i) =
      some ((endLines before).length + (header.length + 1 + (endLines body).length)) := by
  have htext : endLines (before ++ header :: (body ++ "COMMIT".toList :: after)) =
      endLines before ++ (endLines [header] ++ (endLines body ++ ("COMMIT".toList ++ '\n' :: endLines after))) := by
    rw [← endLines_cons, ← endLines_append, ← endLines_append, ← endLines_append]
    rfl
  have hlength : (endLines [header]).length = header.length + 1 := by
    rw [endLines_cons, List.length_append]
    rfl
  rw [commitFrom, List.head?_filter, List.find?_range_eq_some, htext]
  simp only [Bool.and_eq_true, decide_eq_true_eq, Bool.not_eq_true', Bool.and_eq_false_imp]
  refine ⟨⟨⟨by omega, ?_⟩, ?_⟩, ?_, ?_⟩
  · rw [lineStart_endLines_add, ← hlength, lineStart_endLines_add]
    exact lineStart_endLines_add body _ 0
  · rw [commitAt, List.drop_length_add_append, ← hlength, List.drop_length_add_append, List.drop_left]
    rfl
  · rw [List.mem_range]
    simp only [List.length_append, hlength]
    omega
  · rintro j hj ⟨hij, hstart⟩
    obtain ⟨k, rfl⟩ := Nat.exists_eq_add_of_le (show (endLines before).length ≤ j by omega)
    rw [lineStart_endLines_add] at hstart
    rcases Nat.lt_or_ge k (header.length + 1) with hk | hk
    · -- no line starts within the header
      obtain ⟨k, rfl⟩ := Nat.exists_eq_add_of_lt (show 0 < k by omega)
      have hbreak : (header ++ ('\n' :: endLines []))[k]? = some '\n' := by
        have hmem : (endLines [header] ++ (endLines body ++ ("COMMIT".toList ++ '\n' :: endLines after)))[k]? = some '\n' := by
          simpa [lineStart] using hstart
        rwa [List.getElem?_append_left (by omega), endLines_cons] at hmem
      rw [List.getElem?_append_left (by omega)] at hbreak
      exact absurd (List.mem_of_getElem? hbreak) hheader
    · obtain ⟨m, rfl⟩ := Nat.exists_eq_add_of_le hk
      rw [← hlength, lineStart_endLines_add] at hstart
      obtain ⟨line, hline, rest, hdrop⟩ := exists_line_of_lineStart (fun l hl => (hbody l hl).1) (i := m) (by omega) hstart
      rw [commitAt, List.drop_length_add_append, ← hlength, List.drop_length_add_append, hdrop, (hbody line hline).not_commit,
        Bool.false_and]

/-- What is left of a header's line behind a name that it begins with. -/
def residue (rest : List Char) : List (List Char) := if rest = [] then [] else [rest.dropWhile (· = 's')]

/-- A name finds the first table whose name begins with it. Where the name is longer, the rest of it stays in front of the body as a
line of its own. -/
theorem tableBody_endLines {name rest : List Char} (hname : '\n' ∉ name) (hrest : ∀ c ∈ rest, isSpace c = false)
    {before body after : List (List Char)} (hbefore : ∀ line ∈ before, '\n' ∉ line ∧ ¬ '*' :: name <+: line)
    (hbody : ∀ line ∈ body, IsBodyLine line) :
    tableBody (⟨some '*', .once⟩ :: name.map fun c => ⟨some c, .once⟩)
      (endLines (before ++ ('*' :: (name ++ rest)) :: (body ++ "COMMIT".toList :: after))) = some (endLines (residue rest ++ body)) := by
  have hstar : '\n' ∉ '*' :: name := fun h => (List.mem_cons.1 h).elim (by decide) hname
  have hheader : '\n' ∉ '*' :: (name ++ rest) := by
    intro h
    rcases List.mem_cons.1 h with h | h
    · exact absurd h (by decide)
    · exact (List.mem_append.1 h).elim hname fun h => absurd (hrest _ h) (by decide)
  set further := body ++ "COMMIT".toList :: after with hfurther
  set text := endLines (before ++ ('*' :: (name ++ rest)) :: further) with htext
  have hlines : text = endLines before ++ (('*' :: name) ++ (rest ++ '\n' :: endLines further)) := by
    rw [htext, endLines_append, endLines_cons, List.cons_append, List.append_assoc, List.cons_append]
  -- what follows the header's line is no blank, and no letter that is left out
  obtain ⟨c, cs, hfirst, hc⟩ : ∃ c cs, endLines further = c :: cs ∧ (c = ':' ∨ c = '-' ∨ c = 'C') := by
    rw [hfurther]
    rcases body with _ | ⟨line, body⟩
    · exact ⟨'C', _, rfl, .inr (.inr rfl)⟩
    · obtain ⟨-, hhead⟩ := hbody line List.mem_cons_self
      rcases line with _ | ⟨c, line⟩
      · exact absurd hhead (by simp)
      · refine ⟨c, _, rfl, ?_⟩
        rw [List.head?_cons, Option.some.injEq, Option.some.injEq] at hhead
        exact hhead.imp_right .inl
  have hblank : isSpace c = false := by rcases hc with rfl | rfl | rfl <;> decide
  have hletter : decide (c = 's') = false := by rcases hc with rfl | rfl | rfl <;> decide
  have hitems : (⟨some '*', .once⟩ : PatternItem) :: name.map (fun c => ⟨some c, .once⟩) =
      ('*' :: name).map fun c => ⟨some c, .once⟩ := rfl
  rw [tableBody]
  simp only [hitems, matchLengths_literal]
  refine findSome?_range (i := (endLines before).length) ?_ (fun j hj => ?_) ?_
  · rw [hlines, List.length_append]
    omega
  · split
    · rename_i hstart
      rw [hlines] at hstart ⊢
      obtain ⟨line, hline, cs, hdrop⟩ := exists_line_of_lineStart (fun l hl => (hbefore l hl).1) hj hstart
      rw [hdrop, if_neg, List.findSome?_nil]
      rw [List.isPrefixOf_iff_prefix]
      exact fun hprefix => (hbefore line hline).2 (prefix_of_prefix_append_break hstar hprefix)
    · rfl
  · have hstart : lineStart text (endLines before).length = true := by
      rw [hlines]
      exact lineStart_endLines_add before _ 0
    have hdrop : text.drop (endLines before).length = ('*' :: name) ++ (rest ++ '\n' :: endLines further) := by
      rw [hlines, List.drop_left]
    have hafter : text.drop ((endLines before).length + ('*' :: name).length) = rest ++ '\n' :: endLines further := by
      rw [hlines, List.drop_length_add_append, List.drop_left]
    have hprefix : ('*' :: name).isPrefixOf (('*' :: name) ++ (rest ++ '\n' :: endLines further)) = true :=
      List.isPrefixOf_iff_prefix.2 (List.prefix_append _ _)
    -- the commit is found from behind the blanks and the letters
    have hcommit : ∀ i, 0 < i → i ≤ ('*' :: (name ++ rest)).length + 1 → commitFrom text ((endLines before).length + i) =
        some ((endLines before).length + (('*' :: (name ++ rest)).length + 1 + (endLines body).length)) :=
      fun i hpos hle => commitFrom_endLines hheader hbody hpos hle
    rw [if_pos hstart, hdrop, if_pos hprefix, List.findSome?_singleton, hafter]
    cases rest with
    | nil =>
      have hbreak : ([] ++ '\n' :: endLines further : List Char).takeWhile isSpace = ['\n'] := by
        rw [List.nil_append, hfirst, List.takeWhile_cons_of_pos (by decide), List.takeWhile_cons_of_neg (by rw [hblank]; exact Bool.false_ne_true)]
      have hnext : text.drop ((endLines before).length + ('*' :: name).length + 1) = endLines further := by
        rw [← List.drop_drop, hafter]
        rfl
      rw [hbreak, List.length_singleton]
      refine findSome?_reverse_range ?_
      have hletters : ((endLines further).takeWhile (decide <| · = 's')).length = 0 := by
        rw [hfirst, List.takeWhile_cons_of_neg (by rw [hletter]; exact Bool.false_ne_true)]
        rfl
      rw [hnext, hletters]
      refine findSome?_reverse_range ?_
      have hone := hcommit (('*' :: name).length + 1) (Nat.succ_pos _) (by rw [List.append_nil])
      rw [← Nat.add_assoc] at hone
      rw [Nat.add_zero, hone, Option.map_some, slice, hnext, residue, if_pos rfl, List.nil_append, hfurther, endLines_append]
      refine congrArg some ?_
      rw [List.append_nil, show (endLines before).length + (('*' :: name).length + 1 + (endLines body).length) -
        ((endLines before).length + ('*' :: name).length + 1) = (endLines body).length by omega, List.take_left]
    | cons r rs =>
      have hnone : ((r :: rs) ++ '\n' :: endLines further).takeWhile isSpace = [] := by
        rw [List.cons_append, List.takeWhile_cons_of_neg (by rw [hrest r List.mem_cons_self]; exact Bool.false_ne_true)]
      rw [hnone, List.length_nil]
      refine findSome?_reverse_range ?_
      rw [Nat.add_zero, hafter]
      have hletters : ((r :: rs) ++ '\n' :: endLines further).takeWhile (decide <| · = 's') = (r :: rs).takeWhile (decide <| · = 's') := by
        rw [List.takeWhile_append]
        split
        · rw [List.takeWhile_cons_of_neg (by decide), List.append_nil]
          rename_i hall
          exact (List.takeWhile_prefix _).eq_of_length hall |>.symm
        · rfl
      rw [hletters]
      refine findSome?_reverse_range ?_
      have hle := (List.takeWhile_prefix (l := r :: rs) (decide <| · = 's')).length_le
      have hone := hcommit (('*' :: name).length + ((r :: rs).takeWhile (decide <| · = 's')).length) (Nat.add_pos_left (Nat.succ_pos _) _)
        (by simp only [List.length_cons, List.length_append] at hle ⊢; omega)
      rw [← Nat.add_assoc] at hone
      have hslice : text.drop ((endLines before).length + ('*' :: name).length + ((r :: rs).takeWhile (decide <| · = 's')).length) =
          (r :: rs).dropWhile (decide <| · = 's') ++ '\n' :: endLines further := by
        rw [← List.drop_drop, hafter, List.drop_append_of_le_length hle]
        congr 1
        conv_lhs =>
          arg 2
          rw [← List.takeWhile_append_dropWhile (p := (decide <| · = 's')) (l := r :: rs)]
        exact List.drop_left
      rw [hone, Option.map_some, slice, hslice, residue, if_neg (List.cons_ne_nil r rs), List.singleton_append, endLines_cons, hfurther,
        endLines_append, show ∀ l l' l'' : List Char, l ++ '\n' :: (l' ++ l'') = (l ++ '\n' :: l') ++ l'' by simp]
      refine congrArg some (List.take_left' ?_)
      have hsum := congrArg List.length (List.takeWhile_append_dropWhile (p := (decide <| · = 's')) (l := r :: rs))
      rw [List.length_append] at hsum
      simp only [List.length_append, List.length_cons] at hsum ⊢
      omega

/-! ## Finding the chains -/

/-- The chains a body declares are its chains. -/
theorem declaredNames_body {chains : List DumpChain} {rules : List DumpRule}
    (hchains : ∀ c ∈ chains, IsSavedName c.name.toList ∧ '\n' ∉ c.rest.toList) (hrules : ∀ r ∈ rules, '\n' ∉ r.line) {fuel : Nat}
    (hfuel : (endLines (chains.map DumpChain.line ++ rules.map DumpRule.line)).length < fuel) :
    declaredNames fuel true (endLines (chains.map DumpChain.line ++ rules.map DumpRule.line)) = chains.map fun c => c.name.toList := by
  induction chains generalizing fuel with
  | nil =>
    rw [List.map_nil, List.nil_append] at hfuel ⊢
    induction rules generalizing fuel with
    | nil =>
      obtain ⟨fuel, rfl⟩ := Nat.exists_eq_add_of_lt hfuel
      rfl
    | cons r rules ih =>
      rw [List.map_cons, endLines_cons] at hfuel ⊢
      rw [List.length_append, List.length_cons] at hfuel
      obtain ⟨further, rfl⟩ := Nat.exists_eq_add_of_le (show r.line.length + 1 ≤ fuel by omega)
      rw [declaredNames_other (hrules r List.mem_cons_self) fun h => absurd (show '-' = ':' from Option.some.inj h) (by decide)]
      exact ih (fun r' hr' => hrules r' (List.mem_cons_of_mem _ hr')) (by omega)
  | cons c chains ih =>
    have hc := hchains c List.mem_cons_self
    rw [List.map_cons, List.cons_append, endLines_cons] at hfuel ⊢
    rw [List.length_append, List.length_cons, DumpChain.line, List.length_cons] at hfuel
    obtain ⟨further, rfl⟩ := Nat.exists_eq_add_of_le' (show 2 ≤ fuel by omega)
    rw [DumpChain.line, declaredNames_chain hc.1 hc.2, ih (fun c' hc' => hchains c' (List.mem_cons_of_mem _ hc')) (by omega), List.map_cons]

end SaveSearch

/-! ## What is found in a dump -/

section Found

variable {d : Dump} {t : DumpTable}

theorem DumpRule.line_toList (r : DumpRule) : r.line = '-' :: 'A' :: ' ' :: (r.chain.toList ++ r.options.toList) := rfl

/-- The lines of a table's body are one line each. -/
theorem DumpTable.WellFormed.isBodyLine (h : t.WellFormed) : ∀ line ∈ t.bodyLines, SaveSearch.IsBodyLine line := by
  intro line hline
  rcases List.mem_append.1 hline with hline | hline
  · obtain ⟨c, hc, rfl⟩ := List.mem_map.1 hline
    obtain ⟨hname, hrest⟩ := h.chains c hc
    refine ⟨?_, .inl rfl⟩
    simp only [DumpChain.line, List.mem_cons, List.mem_append, not_or]
    exact ⟨by decide, hname.no_break, by decide, hrest⟩
  · obtain ⟨r, hr, rfl⟩ := List.mem_map.1 hline
    obtain ⟨hname, -, hoptions⟩ := h.rules r hr
    refine ⟨?_, .inr rfl⟩
    simp only [DumpRule.line_toList, List.mem_cons, List.mem_append, not_or]
    exact ⟨by decide, by decide, by decide, hname.no_break, hoptions⟩

theorem DumpTable.WellFormed.not_mem_break (h : t.WellFormed) : '\n' ∉ t.name.toList := fun hbreak =>
  absurd (h.name _ hbreak).2.2.2 (by decide)

/-- The table that a name finds in a dump: the first one whose name begins with it. -/
def Dump.found (d : Dump) (name : String) : Option DumpTable := d.tables.find? fun t => name.toList.isPrefixOf t.name.toList

/-- What is extracted for a name from the table it finds: the body, behind what the table's name has more. -/
def DumpTable.extracted (t : DumpTable) (name : String) : List (List Char) :=
  SaveSearch.residue (t.name.toList.drop name.toList.length) ++ t.bodyLines

/-- Before the header of the table that a name finds, no line begins with it. -/
theorem Dump.WellFormed.before_header (h : d.WellFormed) {name : String} {before after : List DumpTable} (hd : d.tables = before ++ t :: after)
    (hbefore : ∀ t' ∈ before, ¬ name.toList <+: t'.name.toList) :
    ∀ line ∈ before.flatMap DumpTable.lines ++ t.comments.map String.toList, '\n' ∉ line ∧ ¬ '*' :: name.toList <+: line := by
  have hcomment : ∀ comment : String, IsDumpComment comment → '\n' ∉ comment.toList ∧ ¬ '*' :: name.toList <+: comment.toList := by
    rintro comment ⟨hhead, hbreak⟩
    refine ⟨hbreak, fun hprefix => ?_⟩
    obtain ⟨rest, hrest⟩ := hprefix
    rw [← hrest, List.cons_append, List.head?_cons] at hhead
    exact absurd (Option.some.inj hhead) (by decide)
  intro line hline
  rcases List.mem_append.1 hline with hline | hline
  · obtain ⟨t', ht', hline⟩ := List.mem_flatMap.1 hline
    have hmem : t' ∈ d.tables := hd ▸ List.mem_append_left _ ht'
    rcases List.mem_append.1 hline with hline | hline
    · obtain ⟨comment, hmem', rfl⟩ := List.mem_map.1 hline
      exact hcomment comment ((h.tables t' hmem).comments comment hmem')
    · rcases List.mem_cons.1 hline with rfl | hline
      · refine ⟨fun hbreak => ?_, fun hprefix => hbefore t' ht' (List.cons_prefix_cons.1 hprefix).2⟩
        exact (List.mem_cons.1 hbreak).elim (by decide) (h.tables t' hmem).not_mem_break
      · rcases List.mem_append.1 hline with hline | hline
        · obtain ⟨hbreak, hhead⟩ := (h.tables t' hmem).isBodyLine line hline
          refine ⟨hbreak, fun hprefix => ?_⟩
          obtain ⟨rest, rfl⟩ := hprefix
          exact absurd hhead (by simp)
        · rw [List.mem_singleton] at hline
          subst hline
          exact ⟨by decide, fun hprefix => absurd (List.cons_prefix_cons.1 hprefix).1 (by decide)⟩
  · obtain ⟨comment, hmem, rfl⟩ := List.mem_map.1 hline
    exact hcomment comment ((h.tables t (hd ▸ List.mem_append_right _ List.mem_cons_self)).comments comment hmem)

/-- What the table has that a name finds is what is extracted for the name. -/
theorem extractTableFromSave_dump (h : d.WellFormed) {name : String} (hname : ∀ c ∈ name.toList, c ≠ '+' ∧ c ≠ '.' ∧ c ≠ '\n')
    (hfound : d.found name = some t) : extractTableFromSave d.text name = .ok (endLines (t.extracted name)) := by
  obtain ⟨hbegins, before, after, hd, hbefore⟩ := List.find?_eq_some_iff_append.1 hfound
  have hno : ∀ t' ∈ before, ¬ name.toList <+: t'.name.toList := fun t' ht' hprefix => by
    have := hbefore t' ht'
    rw [List.isPrefixOf_iff_prefix.2 hprefix] at this
    cases this
  have hwell := h.tables t (hd ▸ List.mem_append_right _ List.mem_cons_self)
  have hheader : t.name.toList = name.toList ++ t.name.toList.drop name.toList.length := by
    obtain ⟨rest, hrest⟩ := List.isPrefixOf_iff_prefix.1 hbegins
    rw [← hrest, List.drop_left]
  have hlines : d.lines = (before.flatMap DumpTable.lines ++ t.comments.map String.toList) ++
      ('*' :: (name.toList ++ t.name.toList.drop name.toList.length)) ::
      (t.bodyLines ++ "COMMIT".toList :: (after.flatMap DumpTable.lines ++ d.comments.map String.toList)) := by
    rw [Dump.lines, hd, List.flatMap_append, List.flatMap_cons, DumpTable.lines, ← hheader]
    simp only [List.append_assoc, List.cons_append, List.nil_append]
  rw [extractTableFromSave, SaveSearch.patternItems_literal fun c hc => ⟨(hname c hc).1, (hname c hc).2.1⟩]
  simp only [List.reverse_singleton, List.singleton_append]
  rw [Dump.text, String.toList_ofList, hlines, SaveSearch.tableBody_endLines (fun hbreak => (hname _ hbreak).2.2 rfl)
    (fun c hc => (hwell.name c (List.mem_of_mem_drop hc)).2.2.2) (h.before_header hd hno) hwell.isBodyLine, Option.getD_some]
  rfl

/-- What a table's name has more is a line without a blank that does not begin with a colon. -/
theorem DumpTable.WellFormed.residue (h : t.WellFormed) {name : String} {line : List Char}
    (hline : line ∈ SaveSearch.residue (t.name.toList.drop name.toList.length)) : ' ' ∉ line ∧ '\n' ∉ line ∧ line.head? ≠ some ':' := by
  unfold SaveSearch.residue at hline
  split at hline
  · cases hline
  · have hchar : ∀ c ∈ line, c ≠ ':' ∧ SaveSearch.isSpace c = false := by
      intro c hc
      rw [List.mem_singleton.1 hline] at hc
      exact (h.name c (List.mem_of_mem_drop ((List.dropWhile_suffix _).subset hc))).2.2
    refine ⟨fun hc => absurd (hchar _ hc).2 (by decide), fun hc => absurd (hchar _ hc).2 (by decide), fun hhead => ?_⟩
    exact (hchar ':' (List.mem_of_mem_head? hhead)).1 rfl

/-- The lines that are extracted are one line each. -/
theorem DumpTable.WellFormed.extracted (h : t.WellFormed) (name : String) : ∀ line ∈ t.extracted name, '\n' ∉ line := by
  intro line hline
  rcases List.mem_append.1 hline with hline | hline
  · exact (h.residue hline).2.1
  · exact (h.isBodyLine line hline).1

/-- Of the lines that are extracted, those that begin with a text with a blank are lines of the body. -/
theorem DumpTable.WellFormed.filter_extracted (h : t.WellFormed) {name : String} {begin : List Char} (hbegin : ' ' ∈ begin) :
    (t.extracted name).filter (begin.isPrefixOf ·) = t.bodyLines.filter (begin.isPrefixOf ·) := by
  rw [DumpTable.extracted, List.filter_append, List.filter_eq_nil_iff.2, List.nil_append]
  intro line hline
  rw [List.isPrefixOf_iff_prefix]
  exact fun hprefix => (h.residue hline).1 (List.IsPrefix.subset hprefix hbegin)

/-- The lines of a chain's rules in a dump. -/
def DumpTable.rulesOf (t : DumpTable) (chain : String) : List DumpRule := t.rules.filter fun r => r.chain = chain

/-- The rules of a chain that are copied: those with options. -/
theorem extractChainFromTableSave_extracted (h : t.WellFormed) (name : String) {chain : String} (hchain : ' ' ∉ chain.toList) :
    extractChainFromTableSave (endLines (t.extracted name)) chain =
      ((t.rulesOf chain).filter fun r => r.options ≠ "").map DumpRule.line := by
  have hpattern : ("-A " ++ chain ++ " ").toList = '-' :: 'A' :: ' ' :: (chain.toList ++ [' ']) := by simp
  have hchains : (t.chains.map DumpChain.line).filter (("-A " ++ chain ++ " ").toList.isPrefixOf ·) = [] := by
    refine List.filter_eq_nil_iff.2 fun line hline => ?_
    obtain ⟨c, -, rfl⟩ := List.mem_map.1 hline
    rw [hpattern, List.isPrefixOf_iff_prefix]
    exact fun hprefix => absurd (List.cons_prefix_cons.1 hprefix).1 (by decide)
  rw [extractChainFromTableSave, SaveSearch.endedLines_endLines (h.extracted name), h.filter_extracted (by rw [hpattern]; simp),
    DumpTable.bodyLines, List.filter_append, hchains, List.nil_append, List.filter_map, DumpTable.rulesOf, List.filter_filter]
  refine congrArg _ (List.filter_congr fun r hr => ?_)
  obtain ⟨hname, hoptions, -⟩ := h.rules r hr
  rw [Function.comp_apply, hpattern, DumpRule.line_toList, Bool.eq_iff_iff, List.isPrefixOf_iff_prefix, Bool.and_eq_true,
    decide_eq_true_eq, decide_eq_true_eq, List.cons_prefix_cons, List.cons_prefix_cons, List.cons_prefix_cons]
  simp only [true_and]
  constructor
  · rintro ⟨rest, hrest⟩
    rw [List.append_assoc] at hrest
    rcases hoptions with hnil | hblank
    · -- without options no blank follows the name
      rw [hnil, List.append_nil] at hrest
      exact absurd (hrest ▸ List.mem_append_right _ List.mem_cons_self) hname.no_blank
    · obtain ⟨further, hfurther⟩ := List.head?_eq_some_iff.1 hblank
      rw [hfurther] at hrest
      refine ⟨fun hnil => ?_, String.toList_inj.1 (eq_of_append_blank hname.no_blank hchain hrest.symm)⟩
      rw [hnil] at hfurther
      cases hfurther
  · rintro ⟨hne, rfl⟩
    rcases hoptions with hnil | hblank
    · exact absurd (String.toList_eq_nil_iff.1 hnil) hne
    · obtain ⟨further, hfurther⟩ := List.head?_eq_some_iff.1 hblank
      exact ⟨further, by rw [hfurther, List.append_assoc]; rfl⟩

/-- True if a line declares the chain. -/
def declares (chain : String) (line : List Char) : Bool := (":" ++ chain ++ " ").toList.isPrefixOf line

theorem declares_iff {chain : String} (hchain : ' ' ∉ chain.toList) {name : List Char} (hname : ' ' ∉ name) (rest : List Char) :
    declares chain (':' :: (name ++ ' ' :: rest)) = true ↔ name = chain.toList := by
  have hpattern : (":" ++ chain ++ " ").toList = ':' :: (chain.toList ++ [' ']) := by simp
  rw [declares, hpattern, List.isPrefixOf_iff_prefix, List.cons_prefix_cons]
  constructor
  · rintro ⟨-, further, hfurther⟩
    rw [List.append_assoc] at hfurther
    exact (eq_of_append_blank hchain hname hfurther).symm
  · rintro rfl
    exact ⟨rfl, rest, by rw [List.append_assoc]; rfl⟩

/-- The chains that what is extracted declares. -/
theorem declaredNames_extracted (h : t.WellFormed) (name : String) :
    SaveSearch.declaredNames ((endLines (t.extracted name)).length + 1) true (endLines (t.extracted name)) =
      t.chains.map fun c => c.name.toList := by
  have hrules : ∀ r ∈ t.rules, '\n' ∉ r.line := fun r hr => (h.isBodyLine _ (List.mem_append_right _ (List.mem_map_of_mem hr))).1
  rw [DumpTable.extracted]
  cases hresidue : SaveSearch.residue (t.name.toList.drop name.toList.length) with
  | nil => exact SaveSearch.declaredNames_body h.chains hrules (Nat.lt_succ_self _)
  | cons line lines =>
    obtain rfl : lines = [] := by
      unfold SaveSearch.residue at hresidue
      split at hresidue
      · cases hresidue
      · exact (List.cons.inj hresidue).2.symm
    obtain ⟨-, hbreak, hcolon⟩ := h.residue (hresidue ▸ List.mem_singleton_self line)
    rw [List.singleton_append, endLines_cons, List.length_append, List.length_cons,
      show line.length + ((endLines t.bodyLines).length + 1) + 1 = line.length + 1 + ((endLines t.bodyLines).length + 1) by omega,
      SaveSearch.declaredNames_other hbreak hcolon]
    exact SaveSearch.declaredNames_body h.chains hrules (Nat.lt_succ_self _)

/-- The line of a chain that is copied is that of the chain of its name in the table that is found. -/
theorem savedChainLine_extracted (h : t.WellFormed) (name : String) {chain : String} (hchain : ' ' ∉ chain.toList) :
    savedChainLine (endLines (t.extracted name)) chain = (t.chains.find? fun c => c.name = chain).map DumpChain.line := by
  have hpattern : (":" ++ chain ++ " ").toList = ':' :: (chain.toList ++ [' ']) := by simp
  have hrules : (t.rules.map DumpRule.line).filter ((":" ++ chain ++ " ").toList.isPrefixOf ·) = [] := by
    refine List.filter_eq_nil_iff.2 fun line hline => ?_
    obtain ⟨r, -, rfl⟩ := List.mem_map.1 hline
    rw [hpattern, List.isPrefixOf_iff_prefix]
    exact fun hprefix => absurd (List.cons_prefix_cons.1 hprefix).1 (by decide)
  have hdeclares : ∀ c ∈ t.chains, declares chain c.line = decide (c.name = chain) := fun c hc => by
    rw [Bool.eq_iff_iff, decide_eq_true_iff]
    exact (declares_iff hchain (h.chains c hc).1.no_blank _).trans String.toList_inj
  rw [savedChainLine, SaveSearch.endedLines_endLines (h.extracted name), ← List.head?_filter, h.filter_extracted (by rw [hpattern]; simp),
    DumpTable.bodyLines, List.filter_append, hrules, List.append_nil, List.filter_map, List.head?_map, ← List.head?_filter]
  exact congrArg (fun chains : List DumpChain => chains.head?.map DumpChain.line) (List.filter_congr hdeclares)

end Found

/-! ## Marked chains -/

/-- `@preserve` marks the chain, by its name or by a pattern. -/
def TableInfo.marks (info : TableInfo) (chain : String) : Bool :=
  (info.chains.get? chain).any (fun ci => ci.preserve) || info.preserveRegexes.any fun regex => regex chain

/-- A marked chain is copied unless the configuration declares it without its own mark. -/
def TableInfo.copies (info : TableInfo) (chain : String) : Bool := (info.chains.get? chain).all fun ci => ci.preserve

/-- The chain's line that the configuration writes by itself. -/
def TableInfo.ownLine (info : TableInfo) (table : String) (flush : Bool) (chain : String) : Option (List Char) :=
  (info.chains.get? chain).bind fun ci => (policyEntry table chain ci flush).map SaveEntry.chars

/-- The rules of a chain that the configuration writes by itself. -/
def TableInfo.ownRules (info : TableInfo) (domain : Family) (flush : Bool) (chain : String) : List (List Char) :=
  ((info.chains.get? chain).elim [] fun ci => emittedRules domain [] flush chain { ci with preserve := false }).map SaveEntry.chars

/-- True if a line is a rule of the chain. -/
def isRuleOf (chain : String) (line : List Char) : Bool :=
  line = ("-A " ++ chain).toList || ("-A " ++ chain ++ " ").toList.isPrefixOf line

/-- The entries of a table's section, between its header and its commit. -/
def tableEntries (table : String) (entries : List SaveEntry) : List SaveEntry :=
  ((entries.dropWhile (· ≠ .table table)).drop 1).takeWhile (· ≠ .commit)

/-- A chain of the dump is kept by the section of its table: the section has its line for the chain, and exactly its rules. -/
structure IsKept (t : DumpTable) (c : DumpChain) (body : List SaveEntry) : Prop where
  declared : (body.map SaveEntry.chars).filter (declares c.name) = [c.line]
  rules : (body.map SaveEntry.chars).filter (isRuleOf c.name) = (t.rulesOf c.name).map DumpRule.line

/-- The section of a table keeps what is marked and copies nothing but lines of the table about what is marked. -/
structure IsFaithful (info : TableInfo) (t : DumpTable) (body : List SaveEntry) : Prop where
  kept : ∀ c ∈ t.chains, info.marks c.name = true → IsKept t c body
  foreign : ∀ line, .saved line ∈ body → line.toList ∈ t.bodyLines ∧
    ∃ chain, info.marks chain = true ∧ (declares chain line.toList = true ∨ isRuleOf chain line.toList = true)

/-- What the configuration writes by itself for a marked chain of the dump's table completes what is copied of it from the table that is
found: the chain's line if that table has none, and, behind the rules with options, the bare ones. A chain that is not copied it
writes as it was. -/
def TableInfo.Completes (info : TableInfo) (domain : Family) (flush : Bool) (found t : DumpTable) (c : DumpChain) : Prop :=
  if info.copies c.name then
    ((found.chains.find? fun c' => c'.name = c.name).map DumpChain.line).or (info.ownLine t.name flush c.name) = some c.line ∧
      (t.rulesOf c.name).map DumpRule.line =
        ((found.rulesOf c.name).filter fun r => r.options ≠ "").map DumpRule.line ++ info.ownRules domain flush c.name
  else info.ownLine t.name flush c.name = some c.line ∧ (t.rulesOf c.name).map DumpRule.line = info.ownRules domain flush c.name

/-- True if a chain is copied from the table that is found: by its own mark, or because a pattern finds it there. -/
def TableInfo.takes (info : TableInfo) (found : DumpTable) (chain : String) : Bool :=
  match info.chains.get? chain with
  | some ci => ci.preserve
  | none => (info.preserveRegexes.any fun regex => regex chain) && found.chains.any fun c => c.name = chain

/-- A copy from the table that is found does for the dump's table: the configuration completes it, and nothing is copied that the dump's
table does not have. -/
structure TableInfo.CopiesRightly (info : TableInfo) (domain : Family) (flush : Bool) (found t : DumpTable) : Prop where
  completes : ∀ c ∈ t.chains, info.marks c.name = true → info.Completes domain flush found t c
  chains : ∀ c ∈ found.chains, info.takes found c.name = true → c.line ∈ t.bodyLines
  rules : ∀ r ∈ found.rules, info.takes found r.chain = true → r.options ≠ "" → r.line ∈ t.bodyLines

/-- The chains of a section: those of the configuration, and those that a pattern finds besides. -/
theorem get?_allChains (info : TableInfo) (tableSave : List Char) (name : String) :
    (info.allChains tableSave).get? name = (info.chains.get? name).or
      (if (info.preserveRegexes.any fun regex => regex name) = true ∧
          name.toList ∈ SaveSearch.declaredNames (tableSave.length + 1) true tableSave then
        some { preserve := true }
      else none) := by
  rw [TableInfo.allChains, Dict.get?_merge, Option.map_id']
  cases hname : info.chains.get? name with
  | some ci =>
    have hknown : name ∈ info.chains := Dict.mem_of_get? hname
    split
    · rfl
    · rw [get?_resolveDynamicPreserve_eq, if_neg fun h => h.1 hknown]
      rfl
  | none =>
    rw [Option.or_none, Option.none_or]
    split
    · rename_i hnil
      rw [hnil, Dict.get?_empty]
      exact (if_neg fun h => Bool.false_ne_true h.1).symm
    · simp only [get?_resolveDynamicPreserve_eq, Dict.get?_eq_none_iff.1 hname, not_false_eq_true, true_and]

section Sections

variable {d : Dump} {t : DumpTable} {domain : Family} {info : DomainInfo} {options : IptablesOptions} {tableInfo : TableInfo}

/-- Where a chain is marked, its table is looked up. -/
theorem tableSave_dump (h : d.WellFormed) {name : String} (hname : ∀ c ∈ name.toList, c ≠ '+' ∧ c ≠ '.' ∧ c ≠ '\n')
    (hfound : d.found name = some t) (hprevious : info.previous = some d.text) {chain : String}
    (hmarks : tableInfo.marks chain = true) : info.tableSave name tableInfo = endLines (t.extracted name) := by
  have hneeded : tableInfo.preserveRegexes ≠ [] ∨ (tableInfo.chains.entries.any fun e => e.2.preserve) = true := by
    rcases Bool.or_eq_true_iff.1 hmarks with hchain | hany
    · obtain ⟨ci, hci, hpreserve⟩ := (Option.any_eq_true _ _).1 hchain
      exact .inr (List.any_eq_true.2 ⟨_, Dict.get?_eq_some_iff.1 hci, hpreserve⟩)
    · refine .inl fun hnil => ?_
      rw [hnil] at hany
      exact Bool.false_ne_true hany
  rw [DomainInfo.tableSave, if_pos hneeded, hprevious, Option.getD_some, extractTableFromSave_dump h hname hfound]
  rfl

/-- The chain's entry in a section: the one of the configuration, or a preserved chain that is found. -/
theorem get?_allChains_extracted (h : t.WellFormed) (table name : String) :
    (tableInfo.allChains (endLines (t.extracted table))).get? name = (tableInfo.chains.get? name).or
      (if (tableInfo.preserveRegexes.any fun regex => regex name) = true ∧ (t.chains.any fun c => c.name = name) = true then
        some { preserve := true }
      else none) := by
  have hmem : name.toList ∈ t.chains.map (fun c => c.name.toList) ↔ (t.chains.any fun c => c.name = name) = true := by
    simp [List.any_eq_true, String.toList_inj]
  rw [get?_allChains, declaredNames_extracted h, if_congr (and_congr_right fun _ => hmem) rfl rfl]

/-- What is copied is marked. -/
theorem TableInfo.marks_of_takes {chain : String} (h : tableInfo.takes t chain = true) : tableInfo.marks chain = true := by
  rw [TableInfo.marks]
  unfold TableInfo.takes at h
  split at h
  · rename_i ci hci
    rw [hci, Option.any_some, h, Bool.true_or]
  · rw [(Bool.and_eq_true_iff.1 h).1, Bool.or_true]

/-- The line of a chain's entry begins with its name. -/
theorem chars_chainEntry_eq {table : String} {tableSave : List Char} {name : String} {ci : ChainInfo} {flush : Bool} {x : SaveEntry}
    (h : chainEntry table tableSave name ci flush = some x) : ∃ rest, x.chars = ':' :: (name.toList ++ ' ' :: rest) := by
  unfold chainEntry at h
  split at h
  · rename_i line hline
    obtain rfl := Option.some.inj h
    have hfound : savedChainLine tableSave name = some line := by
      split at hline
      · exact hline
      · cases hline
    obtain ⟨rest, rfl⟩ := List.isPrefixOf_iff_prefix.1 (List.find?_some hfound)
    exact ⟨rest, by simp [SaveEntry.chars]⟩
  · unfold policyEntry at h
    have hchain : ∀ policy, some (SaveEntry.chain name policy) = some x → ∃ rest, x.chars = ':' :: (name.toList ++ ' ' :: rest) := by
      intro policy hx
      obtain rfl := Option.some.inj hx
      exact ⟨policy.toList ++ " [0:0]".toList, by simp [SaveEntry.chars]⟩
    split at h
    · exact hchain _ h
    · split at h
      · exact hchain _ h
      · split at h
        · cases h
        · exact hchain _ h

theorem isRuleOf_iff {chain name : String} (hchain : ' ' ∉ chain.toList) (hname : ' ' ∉ name.toList) {text : List Char}
    (htext : BeginsBlank text) : isRuleOf chain ('-' :: 'A' :: ' ' :: (name.toList ++ text)) = true ↔ name = chain := by
  have hbare : ("-A " ++ chain).toList = '-' :: 'A' :: ' ' :: chain.toList := by simp
  have hpattern : ("-A " ++ chain ++ " ").toList = '-' :: 'A' :: ' ' :: (chain.toList ++ [' ']) := by simp
  rw [isRuleOf, hbare, hpattern, Bool.or_eq_true, decide_eq_true_eq, List.isPrefixOf_iff_prefix, ← String.toList_inj]
  simp only [List.cons.injEq, true_and, List.cons_prefix_cons]
  rcases htext with rfl | hblank
  · rw [List.append_nil]
    refine or_iff_left fun ⟨rest, hrest⟩ => hname ?_
    rw [← hrest, List.append_assoc]
    exact List.mem_append_right _ List.mem_cons_self
  · obtain ⟨rest, rfl⟩ := List.head?_eq_some_iff.1 hblank
    constructor
    · rintro (heq | ⟨further, hfurther⟩)
      · exact absurd (heq ▸ List.mem_append_right _ List.mem_cons_self) hchain
      · rw [List.append_assoc] at hfurther
        exact (eq_of_append_blank hchain hname hfurther).symm
    · intro heq
      exact .inr ⟨rest, by rw [heq, List.append_assoc]; rfl⟩

/-- The rules of a chain in a section: the copied ones, then those of the configuration. -/
theorem emittedRules_eq {tableSave : List Char} {name : String} {ci : ChainInfo} {flush : Bool} {entries : List SaveEntry}
    (h : ruleEntries domain tableSave name ci flush = .ok entries) :
    emittedRules domain tableSave flush name ci =
      (if ci.preserve then (extractChainFromTableSave tableSave name).map fun line => SaveEntry.saved (String.ofList line) else []) ++
        emittedRules domain [] flush name { ci with preserve := false } := by
  rw [emittedRules, emittedRules, h]
  unfold ruleEntries at h ⊢
  cases flush with
  | true =>
    obtain rfl := Except.ok.inj h
    exact (List.append_nil _).symm
  | false =>
    cases hm : ci.rules.mapM fun rule => formatRule domain rule true with
    | error e =>
      rw [hm] at h
      cases h
    | ok texts =>
      rw [hm] at h
      obtain rfl := Except.ok.inj h
      rfl

/-- What stands between the header and the commit of a section. -/
def sectionContent (domain : Family) (info : DomainInfo) (options : IptablesOptions) (e : String × TableInfo) : List SaveEntry :=
  (sectionChains info e).entries.flatMap (fun c => (chainEntry e.1 (info.tableSave e.1 e.2) c.1 c.2 options.flush).toList) ++
    (sectionChains info e).entries.flatMap (fun c => emittedRules domain (info.tableSave e.1 e.2) options.flush c.1 c.2)

/-- The rules of a chain have its name, and then a blank or nothing. -/
theorem chars_of_mem_emittedRules {tableSave : List Char} {name : String} {ci : ChainInfo} {flush : Bool} {x : SaveEntry}
    (h : x ∈ emittedRules domain tableSave flush name ci) : ∃ text, BeginsBlank text ∧ x.chars = '-' :: 'A' :: ' ' :: (name.toList ++ text) := by
  unfold emittedRules at h
  cases hr : ruleEntries domain tableSave name ci flush with
  | ok entries =>
    rw [hr] at h
    exact (chars_of_mem_ruleEntries hr h).2
  | error e =>
    rw [hr] at h
    cases h

section OneTable

variable {e : String × TableInfo} (hnames : ∀ c ∈ (sectionChains info e).entries, ' ' ∉ c.1.toList)

include hnames

/-- The lines of a section that declare one chain. -/
theorem filter_declares_section {chain : String} (hchain : ' ' ∉ chain.toList) :
    ((sectionContent domain info options e).map SaveEntry.chars).filter (declares chain) =
      (((sectionChains info e).get? chain).bind fun ci =>
        (chainEntry e.1 (info.tableSave e.1 e.2) chain ci options.flush).map SaveEntry.chars).toList := by
  have hpattern : (":" ++ chain ++ " ").toList = ':' :: (chain.toList ++ [' ']) := by simp
  have hrules : ((sectionChains info e).entries.flatMap fun c =>
      (emittedRules domain (info.tableSave e.1 e.2) options.flush c.1 c.2).map SaveEntry.chars).filter (declares chain) = [] := by
    refine List.filter_eq_nil_iff.2 fun line hline => ?_
    obtain ⟨c, -, hline⟩ := List.mem_flatMap.1 hline
    obtain ⟨x, hx, rfl⟩ := List.mem_map.1 hline
    obtain ⟨text, -, hchars⟩ := chars_of_mem_emittedRules hx
    rw [hchars, declares, hpattern, List.isPrefixOf_iff_prefix]
    exact fun hprefix => absurd (List.cons_prefix_cons.1 hprefix).1 (by decide)
  rw [sectionContent, List.map_append, List.map_flatMap, List.map_flatMap, List.filter_append, hrules, List.append_nil,
    Dict.filter_flatMap_entries (sectionChains info e) chain]
  · cases (sectionChains info e).get? chain with
    | none => rfl
    | some ci =>
      rw [Option.map_some, Option.getD_some, Option.bind_some, Option.toList_map, List.filter_eq_self]
      intro line hline
      obtain ⟨x, hx, rfl⟩ := List.mem_map.1 hline
      obtain ⟨rest, hrest⟩ := chars_chainEntry_eq (Option.mem_toList.1 hx)
      rw [hrest]
      exact (declares_iff hchain hchain rest).2 rfl
  · intro c hc hne line hline
    obtain ⟨x, hx, rfl⟩ := List.mem_map.1 hline
    obtain ⟨rest, hrest⟩ := chars_chainEntry_eq (Option.mem_toList.1 hx)
    rw [hrest, Bool.eq_false_iff, ne_eq, declares_iff hchain (hnames c hc), String.toList_inj]
    exact hne

/-- The lines of a section that are rules of one chain. -/
theorem filter_isRuleOf_section {chain : String} (hchain : ' ' ∉ chain.toList) {ci : ChainInfo}
    (hget : (sectionChains info e).get? chain = some ci) :
    ((sectionContent domain info options e).map SaveEntry.chars).filter (isRuleOf chain) =
      (emittedRules domain (info.tableSave e.1 e.2) options.flush chain ci).map SaveEntry.chars := by
  have hbare : ("-A " ++ chain).toList = '-' :: 'A' :: ' ' :: chain.toList := by simp
  have hpattern : ("-A " ++ chain ++ " ").toList = '-' :: 'A' :: ' ' :: (chain.toList ++ [' ']) := by simp
  have hdeclared : ((sectionChains info e).entries.flatMap fun c =>
      (chainEntry e.1 (info.tableSave e.1 e.2) c.1 c.2 options.flush).toList.map SaveEntry.chars).filter (isRuleOf chain) = [] := by
    refine List.filter_eq_nil_iff.2 fun line hline => ?_
    obtain ⟨c, -, hline⟩ := List.mem_flatMap.1 hline
    obtain ⟨x, hx, rfl⟩ := List.mem_map.1 hline
    obtain ⟨rest, hrest⟩ := chars_chainEntry_eq (Option.mem_toList.1 hx)
    rw [hrest, isRuleOf, hbare, hpattern, Bool.or_eq_true, decide_eq_true_eq, List.isPrefixOf_iff_prefix]
    rintro (heq | hprefix)
    · exact absurd (List.cons.inj heq).1 (by decide)
    · exact absurd (List.cons_prefix_cons.1 hprefix).1 (by decide)
  rw [sectionContent, List.map_append, List.map_flatMap, List.map_flatMap, List.filter_append, hdeclared, List.nil_append,
    Dict.filter_flatMap_entries (sectionChains info e) chain, hget, Option.map_some, Option.getD_some, List.filter_eq_self]
  · intro line hline
    obtain ⟨x, hx, rfl⟩ := List.mem_map.1 hline
    obtain ⟨text, htext, hchars⟩ := chars_of_mem_emittedRules hx
    rw [hchars]
    exact (isRuleOf_iff hchain hchain htext).2 rfl
  · intro c hc hne line hline
    obtain ⟨x, hx, rfl⟩ := List.mem_map.1 hline
    obtain ⟨text, htext, hchars⟩ := chars_of_mem_emittedRules hx
    rw [hchars, Bool.eq_false_iff, ne_eq, isRuleOf_iff hchain (hnames c hc) htext]
    exact hne

end OneTable

theorem map_chars_saved (lines : List (List Char)) :
    (lines.map fun line => SaveEntry.saved (String.ofList line)).map SaveEntry.chars = lines := by
  rw [List.map_map]
  exact List.map_id'' (fun line => String.toList_ofList) lines

theorem isKept_def {c : DumpChain} {body : List SaveEntry} : IsKept t c body ↔
    (body.map SaveEntry.chars).filter (declares c.name) = [c.line] ∧
      (body.map SaveEntry.chars).filter (isRuleOf c.name) = (t.rulesOf c.name).map DumpRule.line :=
  ⟨fun h => ⟨h.declared, h.rules⟩, fun h => ⟨h.1, h.2⟩⟩

theorem toList_eq_singleton_iff {α : Type} {x : Option α} {a : α} : x.toList = [a] ↔ x = some a := by
  cases x <;> simp

variable {found : DumpTable}

/-- The line of a chain that is copied: the one that is found, or the one that the configuration writes. -/
theorem chars_chainEntry_preserve (hfound : found.WellFormed) (table : String) {chain : String} (hchain : ' ' ∉ chain.toList)
    {ci : ChainInfo} (hpreserve : ci.preserve = true) (flush : Bool) :
    (chainEntry table (endLines (found.extracted table)) chain ci flush).map SaveEntry.chars =
      ((found.chains.find? fun c' => c'.name = chain).map DumpChain.line).or ((policyEntry table chain ci flush).map SaveEntry.chars) := by
  rw [chainEntry, if_pos hpreserve, savedChainLine_extracted hfound table hchain]
  cases found.chains.find? fun c' => c'.name = chain with
  | none => rfl
  | some c' => exact congrArg some String.toList_ofList

/-- A marked chain of the dump is kept exactly when what the configuration writes completes its copy. -/
theorem isKept_iff (h : d.WellFormed) (ht : t ∈ d.tables) (hname : ∀ c ∈ t.name.toList, c ≠ '+' ∧ c ≠ '.' ∧ c ≠ '\n')
    (hfound : d.found t.name = some found) (hprevious : info.previous = some d.text)
    (hnames : ∀ c ∈ (sectionChains info (t.name, tableInfo)).entries, ' ' ∉ c.1.toList)
    (hformats : SectionFormats domain info options (t.name, tableInfo)) {c : DumpChain} (hc : c ∈ t.chains)
    (hmarks : tableInfo.marks c.name = true) :
    IsKept t c (sectionContent domain info options (t.name, tableInfo)) ↔ tableInfo.Completes domain options.flush found t c := by
  have hblank := ((h.tables t ht).chains c hc).1.no_blank
  have hfrom := h.tables found (List.mem_of_find?_eq_some hfound)
  have hsave : info.tableSave t.name tableInfo = endLines (found.extracted t.name) := tableSave_dump h hname hfound hprevious hmarks
  have hget : (sectionChains info (t.name, tableInfo)).get? c.name = (tableInfo.chains.get? c.name).or
      (if (tableInfo.preserveRegexes.any fun regex => regex c.name) = true ∧ (found.chains.any fun c' => c'.name = c.name) = true then
        some { preserve := true }
      else none) := by
    rw [sectionChains, Dict.get?_sorted, hsave, get?_allChains_extracted hfrom]
  have hdeclared : ((sectionContent domain info options (t.name, tableInfo)).map SaveEntry.chars).filter (declares c.name) =
      (((sectionChains info (t.name, tableInfo)).get? c.name).bind fun ci =>
        (chainEntry t.name (info.tableSave t.name tableInfo) c.name ci options.flush).map SaveEntry.chars).toList :=
    filter_declares_section hnames hblank
  rw [isKept_def, hdeclared, toList_eq_singleton_iff, hget, TableInfo.Completes, TableInfo.copies, TableInfo.ownLine, TableInfo.ownRules]
  -- the rules of a chain of the section: the copied ones, then those of the configuration
  have hrules : ∀ ci, (sectionChains info (t.name, tableInfo)).get? c.name = some ci →
      ((sectionContent domain info options (t.name, tableInfo)).map SaveEntry.chars).filter (isRuleOf c.name) =
        (if ci.preserve then ((found.rulesOf c.name).filter fun r => r.options ≠ "").map DumpRule.line else []) ++
          (emittedRules domain [] options.flush c.name { ci with preserve := false }).map SaveEntry.chars := by
    intro ci hci
    obtain ⟨entries, hentries⟩ := hformats _ (Dict.get?_eq_some_iff.1 hci)
    rw [filter_isRuleOf_section hnames hblank hci, emittedRules_eq hentries]
    simp only [hsave]
    cases ci.preserve with
    | true => rw [if_pos rfl, if_pos rfl, List.map_append, map_chars_saved, extractChainFromTableSave_extracted hfrom t.name hblank]
    | false => rfl
  cases hci : tableInfo.chains.get? c.name with
  | none =>
    -- only a pattern marks the chain: it is copied when it is found
    rw [TableInfo.marks, hci, Option.any_none, Bool.false_or] at hmarks
    rw [hci, Option.none_or] at hget
    have hown : emittedRules domain [] options.flush c.name {} = [] := by
      cases hflush : options.flush <;> rfl
    rw [Option.none_or, Option.all_none, if_pos rfl, Option.bind_none, Option.elim_none, Option.or_none, hsave]
    by_cases hthere : (found.chains.any fun c' => c'.name = c.name) = true
    · rw [if_pos ⟨hmarks, hthere⟩] at hget ⊢
      obtain ⟨c', hc', hname'⟩ := List.any_eq_true.1 hthere
      have hsome : (found.chains.find? fun c' => c'.name = c.name).isSome = true := List.find?_isSome.2 ⟨c', hc', hname'⟩
      obtain ⟨c₀, hc₀⟩ := Option.isSome_iff_exists.1 hsome
      rw [Option.bind_some, chars_chainEntry_preserve hfrom t.name hblank rfl, hc₀, Option.map_some, Option.some_or, hrules _ hget,
        if_pos rfl]
      rw [hown]
      exact and_congr_right fun _ => eq_comm
    · rw [if_neg fun hboth => hthere hboth.2, Option.bind_none]
      refine iff_of_false (fun hboth => by cases hboth.1) fun hboth => ?_
      obtain ⟨c', hc', -⟩ := Option.map_eq_some_iff.1 hboth.1
      exact hthere (List.any_eq_true.2 ⟨c', List.mem_of_find?_eq_some hc',
        List.find?_some (p := fun c' : DumpChain => decide (c'.name = c.name)) hc'⟩)
  | some ci =>
    rw [hci, Option.some_or] at hget
    rw [Option.some_or, Option.bind_some, Option.all_some, Option.bind_some, Option.elim_some, hrules _ hget, hsave]
    cases hpreserve : ci.preserve with
    | true =>
      rw [if_pos rfl, if_pos rfl, chars_chainEntry_preserve hfrom t.name hblank hpreserve]
      exact and_congr_right fun _ => eq_comm
    | false =>
      rw [if_neg Bool.false_ne_true, if_neg Bool.false_ne_true, chainEntry, hpreserve, if_neg Bool.false_ne_true, List.nil_append]
      exact and_congr_right fun _ => eq_comm

/-- What the configuration writes for a chain is its own. -/
theorem exists_rule_of_mem {name : String} {ci : ChainInfo} (hpreserve : ci.preserve = false) {flush : Bool} {x : SaveEntry}
    (h : x ∈ emittedRules domain [] flush name ci) : ∃ text, x = .rule name text := by
  unfold emittedRules ruleEntries at h
  rw [hpreserve] at h
  cases flush with
  | true => cases h
  | false =>
    cases hm : ci.rules.mapM fun rule => formatRule domain rule true with
    | error e =>
      rw [hm] at h
      cases h
    | ok texts =>
      rw [hm] at h
      obtain ⟨text, -, rfl⟩ := List.mem_map.1 h
      exact ⟨text, rfl⟩

/-- The policy line that the configuration writes is its own. -/
theorem policyEntry_ne_saved {table chain line : String} {ci : ChainInfo} {flush : Bool} :
    policyEntry table chain ci flush ≠ some (.saved line) := by
  intro h
  unfold policyEntry at h
  split at h
  · cases Option.some.inj h
  · split at h
    · cases Option.some.inj h
    · split at h
      · cases h
      · cases Option.some.inj h

/-- The chains of a section that are copied are those that the table takes from what is found. -/
theorem takes_iff (h : found.WellFormed) (hsave : info.tableSave t.name tableInfo = endLines (found.extracted t.name)) {chain : String} :
    tableInfo.takes found chain = true ↔
      ∃ ci, (sectionChains info (t.name, tableInfo)).get? chain = some ci ∧ ci.preserve = true := by
  rw [sectionChains, Dict.get?_sorted, hsave, get?_allChains_extracted h, TableInfo.takes]
  cases tableInfo.chains.get? chain with
  | some ci => simp
  | none =>
    simp only [Option.none_or, Bool.and_eq_true]
    by_cases hboth : (tableInfo.preserveRegexes.any fun regex => regex chain) = true ∧ (found.chains.any fun c => c.name = chain) = true
    · rw [if_pos hboth]
      exact iff_of_true hboth ⟨_, rfl, rfl⟩
    · rw [if_neg hboth]
      refine iff_of_false hboth ?_
      rintro ⟨_, hci, -⟩
      cases hci

/-- Where something is copied, something is marked. -/
theorem exists_marks_of_saved (hformats : SectionFormats domain info options (t.name, tableInfo)) {line : String}
    (hline : SaveEntry.saved line ∈ sectionContent domain info options (t.name, tableInfo)) : ∃ chain, tableInfo.marks chain = true := by
  have hmarks : ∀ c ∈ (sectionChains info (t.name, tableInfo)).entries, c.2.preserve = true → tableInfo.marks c.1 = true := by
    intro c hc hpreserve
    have hget := Dict.get?_eq_some_iff.2 hc
    rw [sectionChains, Dict.get?_sorted, get?_allChains] at hget
    rw [TableInfo.marks]
    rcases Option.or_eq_some_iff.1 hget with hci | ⟨-, hci⟩
    · rw [hci, Option.any_some, hpreserve, Bool.true_or]
    · split at hci
      · rename_i hfound
        rw [hfound.1, Bool.or_true]
      · cases hci
  rcases List.mem_append.1 hline with hline | hline
  · obtain ⟨c, hc, hentry⟩ := List.mem_flatMap.1 hline
    refine ⟨c.1, hmarks c hc ?_⟩
    by_contra hno
    rw [Option.mem_toList, chainEntry, if_neg hno] at hentry
    exact policyEntry_ne_saved hentry
  · obtain ⟨c, hc, hentry⟩ := List.mem_flatMap.1 hline
    refine ⟨c.1, hmarks c hc ?_⟩
    by_contra hno
    obtain ⟨entries, hentries⟩ := hformats c hc
    rw [emittedRules_eq hentries, if_neg hno, List.nil_append] at hentry
    obtain ⟨text, htext⟩ := exists_rule_of_mem rfl hentry
    cases htext

/-- What a section copies: the line of a chain that is taken, if it is found, and its rules with options. -/
theorem saved_mem_section (h : found.WellFormed) (hsave : info.tableSave t.name tableInfo = endLines (found.extracted t.name))
    (hnames : ∀ c ∈ (sectionChains info (t.name, tableInfo)).entries, ' ' ∉ c.1.toList)
    (hformats : SectionFormats domain info options (t.name, tableInfo)) {line : String} :
    SaveEntry.saved line ∈ sectionContent domain info options (t.name, tableInfo) ↔ ∃ chain, tableInfo.takes found chain = true ∧
      (((found.chains.find? fun c => c.name = chain).map DumpChain.line) = some line.toList ∨
        line.toList ∈ ((found.rulesOf chain).filter fun r => r.options ≠ "").map DumpRule.line) := by
  have hentry : ∀ c ∈ (sectionChains info (t.name, tableInfo)).entries,
      (SaveEntry.saved line ∈ (chainEntry t.name (info.tableSave t.name tableInfo) c.1 c.2 options.flush).toList ↔
        c.2.preserve = true ∧ ((found.chains.find? fun c' => c'.name = c.1).map DumpChain.line) = some line.toList) ∧
      (SaveEntry.saved line ∈ emittedRules domain (info.tableSave t.name tableInfo) options.flush c.1 c.2 ↔
        c.2.preserve = true ∧ line.toList ∈ ((found.rulesOf c.1).filter fun r => r.options ≠ "").map DumpRule.line) := by
    intro c hc
    have hblank := hnames c hc
    constructor
    · rw [Option.mem_toList, hsave, chainEntry, savedChainLine_extracted h t.name hblank]
      cases hpreserve : c.2.preserve with
      | false =>
        rw [if_neg Bool.false_ne_true]
        exact iff_of_false policyEntry_ne_saved fun h => Bool.false_ne_true h.1
      | true =>
        rw [if_pos rfl]
        cases found.chains.find? fun c' => c'.name = c.1 with
        | none => exact iff_of_false policyEntry_ne_saved fun h => by cases h.2
        | some c' =>
          rw [Option.map_some]
          simp only [Option.some.injEq, SaveEntry.saved.injEq, true_and]
          rw [← String.toList_inj, String.toList_ofList]
    · obtain ⟨entries, hentries⟩ := hformats c hc
      rw [emittedRules_eq hentries]
      simp only [hsave, extractChainFromTableSave_extracted h t.name hblank]
      have hown : SaveEntry.saved line ∉ emittedRules domain [] options.flush c.1 { c.2 with preserve := false } := by
        intro hmem
        obtain ⟨text, htext⟩ := exists_rule_of_mem rfl hmem
        cases htext
      rw [List.mem_append, or_iff_left hown]
      cases c.2.preserve with
      | false => exact iff_of_false List.not_mem_nil fun h => Bool.false_ne_true h.1
      | true =>
        rw [if_pos rfl, List.mem_map]
        constructor
        · rintro ⟨text, htext, heq⟩
          rw [← SaveEntry.saved.inj heq, String.toList_ofList]
          exact ⟨rfl, htext⟩
        · rintro ⟨-, htext⟩
          exact ⟨_, htext, congrArg SaveEntry.saved String.ofList_toList⟩
  simp only [takes_iff h hsave]
  constructor
  · intro hline
    rcases List.mem_append.1 hline with hline | hline
    · obtain ⟨c, hc, hmem⟩ := List.mem_flatMap.1 hline
      obtain ⟨hpreserve, hfind⟩ := (hentry c hc).1.1 hmem
      exact ⟨c.1, ⟨c.2, Dict.get?_eq_some_iff.2 hc, hpreserve⟩, .inl hfind⟩
    · obtain ⟨c, hc, hmem⟩ := List.mem_flatMap.1 hline
      obtain ⟨hpreserve, hrule⟩ := (hentry c hc).2.1 hmem
      exact ⟨c.1, ⟨c.2, Dict.get?_eq_some_iff.2 hc, hpreserve⟩, .inr hrule⟩
  · rintro ⟨chain, ⟨ci, hci, hpreserve⟩, hline⟩
    have hc := Dict.get?_eq_some_iff.1 hci
    rcases hline with hfind | hrule
    · exact List.mem_append_left _ (List.mem_flatMap.2 ⟨_, hc, (hentry _ hc).1.2 ⟨hpreserve, hfind⟩⟩)
    · exact List.mem_append_right _ (List.mem_flatMap.2 ⟨_, hc, (hentry _ hc).2.2 ⟨hpreserve, hrule⟩⟩)

/-- The section of a table stands between its header and its commit. -/
theorem tableEntries_eq {version now : String} {entries : List SaveEntry} (h : rulesToSave domain info options version now = .ok entries)
    {e : String × TableInfo} (he : e ∈ info.tables.sorted.entries) : tableEntries e.1 entries = sectionContent domain info options e := by
  obtain ⟨before, after, hsorted⟩ := List.append_of_mem he
  have hcontent : ∀ (e' : String × TableInfo), ∀ x ∈ sectionContent domain info options e', x ≠ .commit ∧ ∀ table, x ≠ .table table := by
    intro e' x hx
    have hhead : x.chars.head? = some ':' ∨ x.chars.head? = some '-' := by
      rcases List.mem_append.1 hx with hx | hx
      · obtain ⟨c, -, hx⟩ := List.mem_flatMap.1 hx
        obtain ⟨rest, hrest⟩ := chars_chainEntry_eq (Option.mem_toList.1 hx)
        exact .inl (by rw [hrest]; rfl)
      · obtain ⟨c, -, hx⟩ := List.mem_flatMap.1 hx
        obtain ⟨text, -, hchars⟩ := chars_of_mem_emittedRules hx
        exact .inr (by rw [hchars]; rfl)
    refine ⟨?_, fun table => ?_⟩
    · rintro rfl
      exact absurd hhead (by decide)
    · rintro rfl
      rw [SaveEntry.chars, SaveEntry.text_table, String.toList_append] at hhead
      exact absurd hhead (by simp)
  have hsection : ∀ e' : String × TableInfo, sectionEntries domain info options e' =
      .table e'.1 :: (sectionContent domain info options e' ++ [.commit]) := fun _ => rfl
  have hnodup : ∀ e' ∈ before, e'.1 ≠ e.1 := by
    have hkeys := info.tables.sorted.nodup
    rw [hsorted, List.map_append, List.nodup_append] at hkeys
    exact fun e' he' => hkeys.2.2 _ (List.mem_map_of_mem he') _ List.mem_cons_self
  obtain ⟨-, hentries⟩ := rulesToSave_entries h
  have hskipped : ∀ x ∈ SaveEntry.comment (version ++ " (" ++ toolName info.saveTool ++ ") on " ++ now) ::
      before.flatMap (sectionEntries domain info options), decide (x ≠ .table e.1) = true := by
    intro x hx
    rw [decide_eq_true_eq]
    rcases List.mem_cons.1 hx with rfl | hx
    · exact fun h => by cases h
    · obtain ⟨e', he', hx⟩ := List.mem_flatMap.1 hx
      rw [hsection, List.mem_cons, List.mem_append, List.mem_singleton] at hx
      rcases hx with rfl | hx | rfl
      · exact fun h => hnodup e' he' (SaveEntry.table.inj h)
      · exact (hcontent e' x hx).2 e.1
      · exact fun h => by cases h
  rw [tableEntries, hentries, hsorted, List.flatMap_append, List.flatMap_cons, ← List.cons_append,
    List.dropWhile_append_of_pos hskipped, hsection, List.cons_append, List.dropWhile_cons_of_neg (by simp), List.drop_succ_cons,
    List.drop_zero, List.append_assoc, List.takeWhile_append_of_pos, List.singleton_append,
    List.takeWhile_cons_of_neg (by simp), List.append_nil]
  exact fun x hx => decide_eq_true (hcontent e x hx).1

/-- What is copied is the line or a rule of a chain that is taken. -/
theorem declares_or_isRuleOf {chain : String} {line : List Char} (hchain : ' ' ∉ chain.toList) (h : found.WellFormed)
    (hline : ((found.chains.find? fun c => c.name = chain).map DumpChain.line) = some line ∨
      line ∈ ((found.rulesOf chain).filter fun r => r.options ≠ "").map DumpRule.line) :
    declares chain line = true ∨ isRuleOf chain line = true := by
  rcases hline with hfind | hrule
  · obtain ⟨c, hc, rfl⟩ := Option.map_eq_some_iff.1 hfind
    have hname : c.name = chain := of_decide_eq_true (List.find?_some (p := fun c : DumpChain => decide (c.name = chain)) hc)
    subst hname
    exact .inl ((declares_iff hchain hchain _).2 rfl)
  · obtain ⟨r, hr, rfl⟩ := List.mem_map.1 hrule
    have hr := (List.mem_filter.1 hr).1
    obtain ⟨hmem, hname⟩ := List.mem_filter.1 hr
    obtain rfl : r.chain = chain := of_decide_eq_true hname
    exact .inr ((isRuleOf_iff hchain hchain (h.rules r hmem).2.1).2 rfl)

/-- For every dump and every table of it, a save is faithful to what is marked exactly when the copy is right of what is found for the
table's name, the first table that begins with it: the configuration itself completes every copy (where the table itself is found,
no marked chain has a bare rule that it does not write itself, and it writes nothing else for a marked chain), and what is copied is in
the table. -/
theorem preserve_faithful_iff {version now : String} {entries : List SaveEntry} (hvalid : validateNames info = .ok ()) (h : d.WellFormed)
    (hprevious : info.previous = some d.text) (ht : t ∈ d.tables) (hget : info.tables.get? t.name = some tableInfo)
    (hsave : rulesToSave domain info options version now = .ok entries) :
    IsFaithful tableInfo t (tableEntries t.name entries) ↔
      ∃ found, d.found t.name = some found ∧ tableInfo.CopiesRightly domain options.flush found t := by
  have hmem : (t.name, tableInfo) ∈ info.tables.sorted.entries := Dict.mem_sorted_entries.2 (Dict.get?_eq_some_iff.1 hget)
  have hformats := (rulesToSave_entries hsave).1 _ hmem
  have hname : ∀ c ∈ t.name.toList, c ≠ '+' ∧ c ≠ '.' ∧ c ≠ '\n' := fun c hc => by
    refine ⟨((h.tables t ht).name c hc).1, ((h.tables t ht).name c hc).2.1, fun hbreak => ?_⟩
    subst hbreak
    exact (h.tables t ht).not_mem_break hc
  have hself : (d.found t.name).isSome = true := List.find?_isSome.2 ⟨t, ht, List.isPrefixOf_iff_prefix.2 (List.prefix_refl _)⟩
  obtain ⟨found, hfound⟩ := Option.isSome_iff_exists.1 hself
  have hfrom := h.tables found (List.mem_of_find?_eq_some hfound)
  rw [tableEntries_eq hsave hmem, hfound]
  simp only [Option.some.injEq, exists_eq_left']
  have htable : (∃ chain, tableInfo.marks chain = true) → info.tableSave t.name tableInfo = endLines (found.extracted t.name) :=
    fun ⟨_, hmarks⟩ => tableSave_dump h hname hfound hprevious hmarks
  have hnames : (∃ chain, tableInfo.marks chain = true) → ∀ c ∈ (sectionChains info (t.name, tableInfo)).entries, ' ' ∉ c.1.toList := by
    intro hmarked c hc
    have hci := Dict.get?_eq_some_iff.2 hc
    rw [sectionChains, Dict.get?_sorted, htable hmarked, get?_allChains_extracted hfrom] at hci
    rcases Option.or_eq_some_iff.1 hci with hci | ⟨-, hci⟩
    · exact ((validateNames_ok hvalid hget).2 _ _ hci).1.no_blank
    · split at hci
      · rename_i hboth
        obtain ⟨c', hc', hname'⟩ := List.any_eq_true.1 hboth.2
        exact of_decide_eq_true hname' ▸ (hfrom.chains c' hc').1.no_blank
      · cases hci
  have hkept : (∀ c ∈ t.chains, tableInfo.marks c.name = true → IsKept t c (sectionContent domain info options (t.name, tableInfo))) ↔
      ∀ c ∈ t.chains, tableInfo.marks c.name = true → tableInfo.Completes domain options.flush found t c :=
    forall₃_congr fun c hc hmarks => isKept_iff h ht hname hfound hprevious (hnames ⟨_, hmarks⟩) hformats hc hmarks
  have hsaved : ∀ chain, tableInfo.takes found chain = true → ∀ line, SaveEntry.saved line ∈ sectionContent domain info options (t.name, tableInfo) ↔ _ :=
    fun chain htakes line => saved_mem_section hfrom (htable ⟨chain, tableInfo.marks_of_takes htakes⟩)
      (hnames ⟨chain, tableInfo.marks_of_takes htakes⟩) hformats
  constructor
  · intro hfaithful
    refine ⟨hkept.1 hfaithful.kept, fun c hc htakes => ?_, fun r hr htakes hne => ?_⟩
    · have hsome : (found.chains.find? fun c' => c'.name = c.name) = some c := by
        cases hfind : found.chains.find? fun c' => c'.name = c.name with
        | none => exact absurd (decide_eq_true rfl) (List.find?_eq_none.1 hfind c hc)
        | some c' =>
          have hname' : c'.name = c.name := of_decide_eq_true (List.find?_some (p := fun c' : DumpChain => decide (c'.name = c.name)) hfind)
          rw [List.inj_on_of_nodup_map hfrom.nodup (List.mem_of_find?_eq_some hfind) hc hname']
      have hline := (hfaithful.foreign (String.ofList c.line) ((hsaved _ htakes _).2 ⟨c.name, htakes, .inl (by
        rw [hsome, String.toList_ofList]
        rfl)⟩)).1
      rwa [String.toList_ofList] at hline
    · have hline := (hfaithful.foreign (String.ofList r.line) ((hsaved _ htakes _).2 ⟨r.chain, htakes, .inr (by
        rw [String.toList_ofList]
        exact List.mem_map_of_mem (List.mem_filter.2 ⟨List.mem_filter.2 ⟨hr, decide_eq_true rfl⟩, decide_eq_true hne⟩))⟩)).1
      rwa [String.toList_ofList] at hline
  · intro hright
    refine ⟨hkept.2 hright.completes, fun line hline => ?_⟩
    obtain ⟨chain₀, hmarks₀⟩ := exists_marks_of_saved hformats hline
    obtain ⟨chain, htakes, hcopied⟩ := (saved_mem_section hfrom (htable ⟨chain₀, hmarks₀⟩) (hnames ⟨chain₀, hmarks₀⟩) hformats).1 hline
    obtain ⟨ci, hci, -⟩ := (takes_iff hfrom (htable ⟨chain₀, hmarks₀⟩)).1 htakes
    have hchain := hnames ⟨chain₀, hmarks₀⟩ _ (Dict.get?_eq_some_iff.1 hci)
    refine ⟨?_, chain, tableInfo.marks_of_takes htakes, declares_or_isRuleOf hchain hfrom hcopied⟩
    rcases hcopied with hfind | hrule
    · obtain ⟨c, hc, hline⟩ := Option.map_eq_some_iff.1 hfind
      have hname' : c.name = chain := of_decide_eq_true (List.find?_some (p := fun c : DumpChain => decide (c.name = chain)) hc)
      exact hline ▸ hright.chains c (List.mem_of_find?_eq_some hc) (hname' ▸ htakes)
    · obtain ⟨r, hr, hline⟩ := List.mem_map.1 hrule
      obtain ⟨hr, hne⟩ := List.mem_filter.1 hr
      obtain ⟨hmem, hname'⟩ := List.mem_filter.1 hr
      exact hline ▸ hright.rules r hmem (of_decide_eq_true hname' ▸ htakes) (of_decide_eq_true hne)

end Sections

section OneChain

/-- A dump with one chain and one rule. -/
private def oneRule (options : String) : DumpTable := ⟨[], "filter", [⟨"DOCKER", "- [0:0]"⟩], [⟨"DOCKER", options⟩]⟩

private def preservedDocker : TableInfo := { chains := Dict.empty.set "DOCKER" { preserve := true } }

private def preserving (options : String) : DomainInfo where
  saveTool := "iptables-save"
  previous := some (Dump.text ⟨[oneRule options], []⟩)
  tables := Dict.empty.set "filter" preservedDocker

private theorem wellFormed_oneRule {options : String} (hblank : BeginsBlank options.toList) (hbreak : '\n' ∉ options.toList) :
    (Dump.mk [oneRule options] []).WellFormed := by
  have hname : IsSavedName "DOCKER".toList := ⟨by decide, by decide, by decide⟩
  have hfilter : ∀ c ∈ "filter".toList, c ≠ '+' ∧ c ≠ '.' ∧ c ≠ ':' ∧ SaveSearch.isSpace c = false := fun c hc =>
    of_decide_eq_true (List.all_eq_true.1
      (show ("filter".toList.all fun c => decide (c ≠ '+' ∧ c ≠ '.' ∧ c ≠ ':' ∧ SaveSearch.isSpace c = false)) = true by decide) c hc)
  have htable : (oneRule options).WellFormed := by
    refine ⟨fun _ h => absurd h List.not_mem_nil, hfilter, ?_, List.nodup_singleton _, ?_⟩
    · intro c hc
      obtain rfl := List.mem_singleton.1 hc
      exact ⟨hname, by decide⟩
    · intro r hr
      obtain rfl := List.mem_singleton.1 hr
      exact ⟨hname, hblank, hbreak⟩
  refine ⟨fun t ht => ?_, fun _ h => absurd h List.not_mem_nil⟩
  obtain rfl := List.mem_singleton.1 ht
  exact htable

/-- A chain that Docker made is kept with its rule. -/
theorem preserve_faithful_docker : ∃ entries, rulesToSave .ip (preserving " -j RETURN") {} "2.7" "now" = .ok entries ∧
    IsFaithful preservedDocker (oneRule " -j RETURN") (tableEntries "filter" entries) := by
  have hvalid : validateNames (preserving " -j RETURN") = .ok () := by decide
  have hright : preservedDocker.CopiesRightly .ip false (oneRule " -j RETURN") (oneRule " -j RETURN") := by
    refine ⟨fun c hc _ => ?_, fun c hc _ => List.mem_append_left _ (List.mem_map_of_mem hc),
      fun r hr _ _ => List.mem_append_right _ (List.mem_map_of_mem hr)⟩
    obtain rfl := List.mem_singleton.1 hc
    exact ⟨rfl, rfl⟩
  have hsave : rulesToSave .ip (preserving " -j RETURN") {} "2.7" "now" = .ok [.comment "2.7 (iptables-save) on now", .table "filter",
      .saved ":DOCKER - [0:0]", .saved "-A DOCKER -j RETURN", .commit] := rfl
  have hdump : (Dump.mk [oneRule " -j RETURN"] []).WellFormed := wellFormed_oneRule (.inr rfl) (by decide)
  exact ⟨_, hsave, (preserve_faithful_iff hvalid hdump rfl List.mem_cons_self rfl hsave).2 ⟨_, rfl, hright⟩⟩

/-- A bare rule is not copied. -/
theorem bare_rule_lost : (Dump.mk [oneRule ""] []).WellFormed ∧ ∃ entries, rulesToSave .ip (preserving "") {} "2.7" "now" = .ok entries ∧
    ¬IsFaithful preservedDocker (oneRule "") (tableEntries "filter" entries) := by
  refine ⟨wellFormed_oneRule (.inl rfl) (by decide), _, rfl, fun hfaithful => ?_⟩
  have hkept := hfaithful.kept ⟨"DOCKER", "- [0:0]"⟩ List.mem_cons_self (by decide)
  exact absurd hkept.rules (by decide)

end OneChain

end Ferm
