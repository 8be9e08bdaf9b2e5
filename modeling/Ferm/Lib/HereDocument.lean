import Ferm.Lib.ShellWords

/-!
# Here-documents

What a POSIX shell gives to a command whose input is a here-document with an unquoted delimiter: the lines up to the first one that
is the delimiter, with expansions put in and backslashes taken out as between double quotes. What an expansion stands for is left
open, and a text is safe when it comes back whatever that is.
-/

namespace Ferm

/-- What a shell puts in for an expansion that begins a text, and how many further characters belong to the expansion. -/
def ShExpand : Type := List Char → List Char × Nat

/-- True if a backslash in front of the character is taken out; a line feed is taken out with it. -/
def isHereEscapable (c : Char) : Bool := isShExpansion c || c = '\\'

/-- The text with expansions put in and backslashes taken out, behind `skip` characters that are used up. -/
def hereExpand (expand : ShExpand) : Nat → List Char → List Char
  | _, [] => []
  | skip + 1, _ :: rest => hereExpand expand skip rest
  | 0, c :: rest =>
    if isShExpansion c then (expand (c :: rest)).1 ++ hereExpand expand (expand (c :: rest)).2 rest
    else if c = '\\' then
      match rest with
      | [] => [c]
      | d :: _ =>
        if isHereEscapable d then d :: hereExpand expand 1 rest
        else if d = '\n' then hereExpand expand 1 rest
        else c :: hereExpand expand 0 rest
    else c :: hereExpand expand 0 rest

/-- The lines of a text up to the delimiter, behind a line that is begun; all of them if the delimiter does not come. -/
def hereBody (delimiter : List Char) : List Char → List Char → List Char
  | line, [] => if line = delimiter then [] else line
  | line, c :: rest =>
    if c = '\n' then if line = delimiter then [] else line ++ '\n' :: hereBody delimiter [] rest
    else hereBody delimiter (line ++ [c]) rest

/-- The input of a command whose here-document begins the text. -/
def hereDocument (expand : ShExpand) (delimiter text : List Char) : List Char :=
  hereExpand expand 0 (hereBody delimiter [] text)

/-- True if a line of the text is the delimiter, behind a line that is begun. -/
def hasDelimiter (delimiter : List Char) : List Char → List Char → Bool
  | _, [] => false
  | line, c :: rest =>
    if c = '\n' then decide (line = delimiter) || hasDelimiter delimiter [] rest else hasDelimiter delimiter (line ++ [c]) rest

/-- True if a shell puts nothing in and takes nothing out: no expansion begins, and no backslash stands in front of what it escapes. -/
def isInert : List Char → Bool
  | [] => true
  | c :: rest =>
    !isShExpansion c && (c ≠ '\\' || rest.head?.all fun d => !isHereEscapable d && d ≠ '\n') && isInert rest

/-- True if the text is empty or ends with a line feed. -/
def isClosed (text : List Char) : Bool := text.getLast?.all (· = '\n')

/-- A text that a here-document gives back. -/
structure HereSafe (delimiter text : List Char) : Prop where
  closed : isClosed text = true
  delimiter : hasDelimiter delimiter [] text = false
  inert : isInert text = true

instance (delimiter text : List Char) : Decidable (HereSafe delimiter text) :=
  decidable_of_iff (isClosed text = true ∧ hasDelimiter delimiter [] text = false ∧ isInert text = true)
    ⟨fun h => ⟨h.1, h.2.1, h.2.2⟩, fun h => ⟨h.1, h.2, h.3⟩⟩

/-! ## Expansions -/

section Expansions

variable (expand : ShExpand)

theorem hereExpand_expansion {c : Char} (h : isShExpansion c = true) (rest : List Char) :
    hereExpand expand 0 (c :: rest) = (expand (c :: rest)).1 ++ hereExpand expand (expand (c :: rest)).2 rest := if_pos h

theorem hereExpand_escape {d : Char} (h : isHereEscapable d = true) (rest : List Char) :
    hereExpand expand 0 ('\\' :: d :: rest) = d :: hereExpand expand 0 rest := by
  change (if isHereEscapable d = true then d :: hereExpand expand 0 rest else _) = _
  rw [if_pos h]

theorem hereExpand_joined (rest : List Char) : hereExpand expand 0 ('\\' :: '\n' :: rest) = hereExpand expand 0 rest := rfl

/-- A character that stands for itself. -/
theorem hereExpand_literal {c : Char} {rest : List Char} (hc : isShExpansion c = false)
    (hescape : c = '\\' → ∀ d ∈ rest.head?, isHereEscapable d = false ∧ d ≠ '\n') :
    hereExpand expand 0 (c :: rest) = c :: hereExpand expand 0 rest := by
  rw [hereExpand.eq_def]
  simp only [hc, Bool.false_eq_true, if_false]
  split
  · cases rest with
    | nil => rfl
    | cons d rest =>
      obtain ⟨hd, hline⟩ := hescape ‹_› d rfl
      simp only [hd, hline, Bool.false_eq_true, if_false]
  · rfl

end Expansions

/-- How a text begins: with an expansion, with a backslash and what it escapes, or with a character that stands for itself. -/
theorem text_cases (c : Char) (rest : List Char) :
    isShExpansion c = true ∨ (∃ d tail, c = '\\' ∧ rest = d :: tail ∧ (isHereEscapable d = true ∨ d = '\n')) ∨
      (isShExpansion c = false ∧ (c = '\\' → ∀ d ∈ rest.head?, isHereEscapable d = false ∧ d ≠ '\n')) := by
  cases hc : isShExpansion c with
  | true => exact .inl rfl
  | false =>
    by_cases hescape : c = '\\' → ∀ d ∈ rest.head?, isHereEscapable d = false ∧ d ≠ '\n'
    · exact .inr (.inr ⟨rfl, hescape⟩)
    · refine .inr (.inl ?_)
      obtain ⟨rfl, hd⟩ := Classical.not_imp.1 hescape
      cases rest with
      | nil => exact absurd (fun d h => by cases h) hd
      | cons d tail =>
        refine ⟨d, tail, rfl, rfl, ?_⟩
        by_contra hnone
        obtain ⟨hd', hline⟩ := not_or.1 hnone
        refine hd fun d' hmem => ?_
        obtain rfl := Option.some.inj hmem
        exact ⟨Bool.eq_false_iff.2 hd', hline⟩

theorem isInert_literal {c : Char} {rest : List Char} (hc : isShExpansion c = false)
    (hescape : c = '\\' → ∀ d ∈ rest.head?, isHereEscapable d = false ∧ d ≠ '\n') : isInert (c :: rest) = isInert rest := by
  rw [isInert, hc]
  by_cases hslash : c = '\\'
  · have hhead : (rest.head?.all fun d => !isHereEscapable d && d ≠ '\n') = true := by
      rw [Option.all_eq_true_iff_get]
      intro h
      simpa using hescape hslash _ (Option.get_mem h)
    rw [hhead]
    simp
  · simp [hslash]

/-- A text that is inert begins with a character that stands for itself. -/
theorem literal_of_inert {c : Char} {rest : List Char} (h : isInert (c :: rest) = true) :
    isShExpansion c = false ∧ (c = '\\' → ∀ d ∈ rest.head?, isHereEscapable d = false ∧ d ≠ '\n') := by
  simp only [isInert, Bool.and_eq_true, Bool.not_eq_true'] at h
  refine ⟨h.1.1, ?_⟩
  rintro rfl d hd
  have hall := h.1.2
  rw [hd] at hall
  simpa using hall

theorem hereExpand_of_inert (expand : ShExpand) {text : List Char} (h : isInert text = true) : hereExpand expand 0 text = text := by
  induction text with
  | nil => rfl
  | cons c rest ih =>
    obtain ⟨hc, hescape⟩ := literal_of_inert h
    rw [isInert_literal hc hescape] at h
    rw [hereExpand_literal expand hc hescape, ih h]

/-- A shell whose expansions stand for nothing. -/
def emptyExpand : ShExpand := fun _ => ([], 0)

/-- With empty expansions a text gets no longer, and it gets shorter unless it is inert. By induction on the length, since a
backslash is used up with what it escapes. -/
theorem length_hereExpand (text : List Char) :
    (hereExpand emptyExpand 0 text).length ≤ text.length ∧
      (isInert text = false → (hereExpand emptyExpand 0 text).length < text.length) := by
  induction hn : text.length using Nat.strongRecOn generalizing text with
  | _ n ih =>
    subst hn
    cases text with
    | nil => exact ⟨Nat.le_refl _, fun h => by cases h⟩
    | cons c rest =>
      rcases text_cases c rest with hc | ⟨d, tail, rfl, rfl, hd⟩ | ⟨hc, hescape⟩
      · have hrest := (ih _ (Nat.lt_succ_self _) rest rfl).1
        rw [hereExpand_expansion emptyExpand hc]
        change (hereExpand emptyExpand 0 rest).length ≤ _ ∧ (_ → (hereExpand emptyExpand 0 rest).length < _)
        rw [List.length_cons]
        exact ⟨by omega, fun _ => by omega⟩
      · have htail := (ih tail.length (by simp only [List.length_cons]; omega) tail rfl).1
        rcases hd with hd | rfl
        · rw [hereExpand_escape emptyExpand hd]
          simp only [List.length_cons]
          exact ⟨by omega, fun _ => by omega⟩
        · rw [hereExpand_joined]
          simp only [List.length_cons]
          exact ⟨by omega, fun _ => by omega⟩
      · have hrest := ih _ (Nat.lt_succ_self _) rest rfl
        rw [hereExpand_literal emptyExpand hc hescape, isInert_literal hc hescape]
        simp only [List.length_cons]
        exact ⟨Nat.succ_le_succ hrest.1, fun h => Nat.succ_lt_succ (hrest.2 h)⟩

/-! ## Bodies -/

section Bodies

variable {delimiter : List Char}

theorem hereBody_line (line rest : List Char) :
    hereBody delimiter line ('\n' :: rest) = if line = delimiter then [] else line ++ '\n' :: hereBody delimiter [] rest := by
  rw [hereBody, if_pos rfl]

theorem hereBody_char {c : Char} (hc : c ≠ '\n') (line rest : List Char) :
    hereBody delimiter line (c :: rest) = hereBody delimiter (line ++ [c]) rest := by
  rw [hereBody, if_neg hc]

theorem hasDelimiter_line (line rest : List Char) :
    hasDelimiter delimiter line ('\n' :: rest) = (decide (line = delimiter) || hasDelimiter delimiter [] rest) := by
  rw [hasDelimiter, if_pos rfl]

theorem hasDelimiter_char {c : Char} (hc : c ≠ '\n') (line rest : List Char) :
    hasDelimiter delimiter line (c :: rest) = hasDelimiter delimiter (line ++ [c]) rest := by
  rw [hasDelimiter, if_neg hc]

theorem isClosed_cons {c : Char} {rest : List Char} (h : rest ≠ []) : isClosed (c :: rest) = isClosed rest := by
  cases rest with
  | nil => exact absurd rfl h
  | cons d rest => rw [isClosed, List.getLast?_cons_cons, isClosed]

/-- What is left of a line. -/
theorem hereBody_rest {text : List Char} (htext : '\n' ∉ text) (line rest : List Char) :
    hereBody delimiter line (text ++ '\n' :: rest) =
      if line ++ text = delimiter then [] else line ++ text ++ '\n' :: hereBody delimiter [] rest := by
  induction text generalizing line with
  | nil => rw [List.nil_append, hereBody_line, List.append_nil]
  | cons c text ih =>
    rw [List.mem_cons, not_or] at htext
    rw [List.cons_append, hereBody_char (Ne.symm htext.1), ih htext.2, List.append_assoc, List.singleton_append]

/-- A closed text without the delimiter goes up to the delimiter. -/
theorem hereBody_closed (hline : '\n' ∉ delimiter) {text line : List Char} (hclosed : isClosed text = true)
    (hbegun : text = [] → line = []) (h : hasDelimiter delimiter line text = false) (after : List Char) :
    hereBody delimiter line (text ++ delimiter ++ '\n' :: after) = line ++ text := by
  induction text generalizing line with
  | nil =>
    rw [hbegun rfl, List.nil_append, hereBody_rest hline, if_pos (List.nil_append _)]
    rfl
  | cons c text ih =>
    by_cases hc : c = '\n'
    · subst hc
      rw [hasDelimiter_line, Bool.or_eq_false_iff, decide_eq_false_iff_not] at h
      have hclosed' : isClosed text = true := by
        cases text with
        | nil => rfl
        | cons d text => rwa [isClosed_cons (List.cons_ne_nil d text)] at hclosed
      rw [List.cons_append, List.cons_append, hereBody_line, if_neg h.1, ih hclosed' (fun _ => rfl) h.2, List.nil_append]
    · have hne : text ≠ [] := by
        rintro rfl
        simp [isClosed, hc] at hclosed
      rw [hasDelimiter_char hc] at h
      rw [isClosed_cons hne] at hclosed
      rw [List.cons_append, List.cons_append, hereBody_char hc, ih hclosed (fun hnil => absurd hnil hne) h, List.append_assoc,
        List.singleton_append]

/-- A text with the delimiter is cut off. -/
theorem length_hereBody_of_hasDelimiter {text line : List Char} (h : hasDelimiter delimiter line text = true) (rest : List Char) :
    (hereBody delimiter line (text ++ rest)).length < (line ++ text).length := by
  induction text generalizing line with
  | nil => cases h
  | cons c text ih =>
    by_cases hc : c = '\n'
    · subst hc
      rw [List.cons_append, hereBody_line]
      split
      · simp only [List.length_nil, List.length_append, List.length_cons]
        omega
      · rename_i hline
        rw [hasDelimiter_line, decide_eq_false hline, Bool.false_or] at h
        have hlt := ih h
        simp only [List.length_append, List.length_cons, List.length_nil] at hlt ⊢
        omega
    · rw [hasDelimiter_char hc] at h
      have hlt := ih h
      rw [List.cons_append, hereBody_char hc]
      simp only [List.length_append, List.length_cons, List.length_nil] at hlt ⊢
      omega

/-- Behind a text that is not closed the delimiter is no line of its own. -/
theorem hereBody_open (hne : delimiter ≠ []) (hline : '\n' ∉ delimiter) {text line : List Char}
    (hopen : text ≠ [] → isClosed text = false) (hbegun : text = [] → line ≠ []) (h : hasDelimiter delimiter line text = false) :
    hereBody delimiter line (text ++ delimiter ++ ['\n']) = line ++ text ++ delimiter ++ ['\n'] := by
  induction text generalizing line with
  | nil =>
    have hlonger : line ++ delimiter ≠ delimiter := fun heq => hbegun rfl (List.append_left_eq_self.1 heq)
    rw [List.nil_append, hereBody_rest hline, if_neg hlonger, hereBody, if_neg (Ne.symm hne), List.append_nil]
  | cons c text ih =>
    have hopen' : text ≠ [] → isClosed text = false := fun htext => by
      rw [← isClosed_cons htext]
      exact hopen (List.cons_ne_nil c text)
    by_cases hc : c = '\n'
    · subst hc
      rw [hasDelimiter_line, Bool.or_eq_false_iff, decide_eq_false_iff_not] at h
      have htext : text ≠ [] := by
        rintro rfl
        exact absurd (hopen (List.cons_ne_nil _ _)) (by decide)
      rw [List.cons_append, List.cons_append, hereBody_line, if_neg h.1, ih hopen' (fun hnil => absurd hnil htext) h.2]
      simp
    · rw [hasDelimiter_char hc] at h
      rw [List.cons_append, List.cons_append, hereBody_char hc, ih hopen' (fun _ => by simp) h]
      simp

end Bodies

/-- The line feed behind a plain character comes last. -/
theorem getLast?_hereExpand {t : Char} (ht : isHereEscapable t = false) (ht' : t ≠ '\n') (text : List Char) :
    (hereExpand emptyExpand 0 (text ++ [t, '\n'])).getLast? = some '\n' := by
  have hexpansion : isShExpansion t = false := (Bool.or_eq_false_iff.1 ht).1
  have hcons : ∀ (c : Char) {l : List Char}, l.getLast? = some '\n' → (c :: l).getLast? = some '\n' := by
    intro c l hl
    rw [List.getLast?_cons, hl]
    rfl
  induction hn : text.length using Nat.strongRecOn generalizing text with
  | _ n ih =>
    subst hn
    cases text with
    | nil =>
      have hescape : t = '\\' → ∀ d ∈ (['\n'] : List Char).head?, isHereEscapable d = false ∧ d ≠ '\n' := by
        rintro rfl
        cases ht
      rw [List.nil_append, hereExpand_literal emptyExpand hexpansion hescape]
      exact hcons t rfl
    | cons c text =>
      rw [List.cons_append]
      rcases text_cases c (text ++ [t, '\n']) with hc | ⟨d, tail, rfl, hrest, hd⟩ | ⟨hc, hescape⟩
      · rw [hereExpand_expansion emptyExpand hc]
        exact ih _ (Nat.lt_succ_self _) text rfl
      · cases text with
        | nil =>
          obtain ⟨rfl, -⟩ := List.cons.inj hrest
          rcases hd with hd | hd
          · rw [ht] at hd
            cases hd
          · exact absurd hd ht'
        | cons e text =>
          obtain ⟨rfl, rfl⟩ := List.cons.inj hrest
          have htail := ih text.length (by simp only [List.length_cons]; omega) text rfl
          rw [List.cons_append]
          rcases hd with hd | rfl
          · rw [hereExpand_escape emptyExpand hd]
            exact hcons _ htail
          · rw [hereExpand_joined]
            exact htail
      · rw [hereExpand_literal emptyExpand hc hescape]
        exact hcons c (ih _ (Nat.lt_succ_self _) text rfl)

/-- Whatever expansions stand for, and whatever follows, a here-document gives back the texts that are safe and no other. -/
theorem hereDocument_eq_iff {start : List Char} {t : Char} (hline : '\n' ∉ start) (ht : isHereEscapable t = false) (ht' : t ≠ '\n')
    (text : List Char) :
    (∀ expand after, hereDocument expand (start ++ [t]) (text ++ (start ++ [t]) ++ '\n' :: after) = text) ↔
      HereSafe (start ++ [t]) text := by
  have hline' : '\n' ∉ start ++ [t] := by
    rw [List.mem_append, not_or, List.mem_singleton]
    exact ⟨hline, Ne.symm ht'⟩
  constructor
  · intro h
    have hempty := h emptyExpand []
    rw [hereDocument] at hempty
    have hdelimiter : hasDelimiter (start ++ [t]) [] text = false := by
      rw [Bool.eq_false_iff]
      intro hmem
      have hcut := length_hereBody_of_hasDelimiter hmem ((start ++ [t]) ++ ['\n'])
      rw [← List.append_assoc, List.nil_append] at hcut
      have hshorter := (length_hereExpand (hereBody (start ++ [t]) [] (text ++ (start ++ [t]) ++ ['\n']))).1
      rw [hempty] at hshorter
      omega
    have hclosed : isClosed text = true := by
      by_contra hopen
      rw [Bool.not_eq_true] at hopen
      have htext : text ≠ [] := by
        rintro rfl
        cases hopen
      rw [hereBody_open (by simp) hline' (fun _ => hopen) (fun hnil => absurd hnil htext) hdelimiter] at hempty
      have hlast := getLast?_hereExpand ht ht' (text ++ start)
      rw [show text ++ start ++ [t, '\n'] = [] ++ text ++ (start ++ [t]) ++ ['\n'] by simp, hempty] at hlast
      rw [isClosed, hlast] at hopen
      cases hopen
    refine ⟨hclosed, hdelimiter, ?_⟩
    rw [hereBody_closed hline' hclosed (fun _ => rfl) hdelimiter] at hempty
    by_contra hinert
    have hlt := (length_hereExpand text).2 (Bool.not_eq_true _ ▸ hinert)
    rw [List.nil_append] at hempty
    rw [hempty] at hlt
    exact Nat.lt_irrefl _ hlt
  · intro h expand after
    rw [hereDocument, hereBody_closed hline' h.closed (fun _ => rfl) h.delimiter, List.nil_append, hereExpand_of_inert expand h.inert]

/-! ## Texts of several lines -/

theorem isClosed_append {a b : List Char} (ha : isClosed a = true) : isClosed (a ++ b) = isClosed b := by
  cases b with
  | nil => rw [List.append_nil, ha, isClosed, List.getLast?_nil, Option.all_none]
  | cons c b => rw [isClosed, isClosed, List.getLast?_append_cons]

theorem hasDelimiter_append (delimiter : List Char) {a line : List Char} (b : List Char) (ha : isClosed a = true)
    (hbegun : a = [] → line = []) :
    hasDelimiter delimiter line (a ++ b) = (hasDelimiter delimiter line a || hasDelimiter delimiter [] b) := by
  induction a generalizing line with
  | nil =>
    rw [hbegun rfl]
    rfl
  | cons c a ih =>
    by_cases hc : c = '\n'
    · subst hc
      have ha' : isClosed a = true := by
        cases a with
        | nil => rfl
        | cons d a => rwa [isClosed_cons (List.cons_ne_nil d a)] at ha
      rw [List.cons_append, hasDelimiter_line, hasDelimiter_line, ih ha' (fun _ => rfl), Bool.or_assoc]
    · have hne : a ≠ [] := by
        rintro rfl
        simp [isClosed, hc] at ha
      rw [isClosed_cons hne] at ha
      rw [List.cons_append, hasDelimiter_char hc, hasDelimiter_char hc, ih ha fun hnil => absurd hnil hne]

theorem isInert_append {a : List Char} (b : List Char) (ha : isClosed a = true) : isInert (a ++ b) = (isInert a && isInert b) := by
  induction a with
  | nil => rfl
  | cons c a ih =>
    cases a with
    | nil =>
      have hc : c = '\n' := by simpa [isClosed] using ha
      subst hc
      rfl
    | cons d a =>
      rw [isClosed_cons (List.cons_ne_nil d a)] at ha
      have hrest := ih ha
      rw [List.cons_append] at hrest ⊢
      rw [List.cons_append, isInert, hrest]
      conv_rhs => rw [isInert]
      rw [List.head?_cons, List.head?_cons, Bool.and_assoc, Bool.and_assoc, Bool.and_assoc]

/-- Lines that are safe are safe together. -/
theorem hereSafe_append_iff (delimiter : List Char) {a b : List Char} (ha : isClosed a = true) :
    HereSafe delimiter (a ++ b) ↔ HereSafe delimiter a ∧ HereSafe delimiter b := by
  have hclosed := isClosed_append (b := b) ha
  have hdelimiter := hasDelimiter_append delimiter b ha fun _ => (rfl : ([] : List Char) = [])
  have hinert := isInert_append b ha
  constructor
  · intro h
    have hclosed' := h.closed
    have hdelimiter' := h.delimiter
    have hinert' := h.inert
    rw [hclosed] at hclosed'
    rw [hdelimiter, Bool.or_eq_false_iff] at hdelimiter'
    rw [hinert, Bool.and_eq_true] at hinert'
    exact ⟨⟨ha, hdelimiter'.1, hinert'.1⟩, hclosed', hdelimiter'.2, hinert'.2⟩
  · rintro ⟨h, h'⟩
    refine ⟨hclosed.trans h'.closed, ?_, ?_⟩
    · rw [hdelimiter, h.delimiter, h'.delimiter]
      rfl
    · rw [hinert, h.inert, h'.inert]
      rfl

/-- A text of lines is safe when every line is. -/
theorem hereSafe_flatMap_iff {α : Type} (delimiter : List Char) (line : α → List Char) (items : List α) :
    HereSafe delimiter (items.flatMap fun a => line a ++ ['\n']) ↔ ∀ a ∈ items, HereSafe delimiter (line a ++ ['\n']) := by
  induction items with
  | nil => exact iff_of_true ⟨rfl, rfl, rfl⟩ fun a h => by cases h
  | cons a items ih =>
    have hclosed : isClosed (line a ++ ['\n']) = true := by rw [isClosed, List.getLast?_concat, Option.all_some]; rfl
    rw [List.flatMap_cons, hereSafe_append_iff delimiter hclosed, ih, List.forall_mem_cons]

end Ferm
