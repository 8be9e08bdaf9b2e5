import Ferm.IpText
import Ferm.Lib.Monadic
import Ferm.Lib.Ordinals
import Ferm.Nft.Declarations
import Ferm.Nft.Stable
import Ferm.Nft.Values
import Mathlib.Data.List.Flatten
import Mathlib.Data.List.Infix

/-!
# Connection limits

A rule's connection limit counts in a set of its own. The set gets its name when the rules of a chain are translated: a digest of the
family, the table, the chain, the text of the rule and the number of the rules before with the same text.

No two limits of a family share a set, and none is in a rule that a pass of the collapse merges with another.
-/

namespace Ferm

/-! ## One limit -/

/-- `_CONNLIMIT_COUNT_MAX`. -/
def CONNLIMIT_COUNT_MAX : Nat := 4294967295

/-- `_connlimit_count`. -/
def connlimitCount (scalar : String) : Except Raised String := do
  if !isAsciiUint scalar.toList then throw (.ferm ("invalid connlimit count '" ++ scalar ++ "' for the nft backend"))
  let value ← intOf scalar
  if CONNLIMIT_COUNT_MAX < value then
    throw (.ferm ("connlimit count '" ++ scalar ++ "' exceeds 2^32-1 for the nft backend"))
  return toString value

/-- The text of the netmask of a prefix length. -/
def netmaskText (version : IpVersion) (bits : Nat) : String :=
  String.ofList (addressText false version ((2 ^ bits - 1) * 2 ^ (version.maxPrefixlen - bits)))

/-- `_prefix_length_mask`. -/
def prefixLengthMask (domain : Family) (length : String) : Except Raised String := do
  if !isAsciiUint length.toList then throw (.ferm ("invalid hashlimit mask '" ++ length ++ "' for the nft backend"))
  let bits ← intOf length
  if domain = .ip then
    if 32 < bits then throw (.ferm ("hashlimit mask '" ++ length ++ "' exceeds /32 for nft"))
    return netmaskText .v4 bits
  if 128 < bits then throw (.ferm ("hashlimit mask '" ++ length ++ "' exceeds /128 for nft"))
  return netmaskText .v6 bits

/-- A mask in the key of a limit; a full one says nothing. -/
def connlimitMaskText (domain : Family) (length : String) : Except Raised String := do
  if !isAsciiUint length.toList then throw (.ferm ("invalid connlimit mask '" ++ length ++ "' for the nft backend"))
  let bits ← intOf length
  let maxBits := if domain = .ip then 32 else 128
  if bits = 0 then
    throw (.ferm "connlimit-mask 0 keys the whole address space as one bucket; refused for the nft backend")
  if maxBits < bits then
    throw (.ferm ("connlimit mask '" ++ length ++ "' exceeds /" ++ toString maxBits ++ " for the nft backend"))
  if bits < maxBits then return " & " ++ (← prefixLengthMask domain length)
  return ""

/-- The option a limit takes its count from, and whether it matches above it. -/
def connlimitRate (rule : Unfold.RenderedRule) : Except Raised (Unfold.RenderedOption × Bool) :=
  match moduleOption rule "connlimit" "connlimit-upto", moduleOption rule "connlimit" "connlimit-above" with
  | some upto, none => .ok (upto, false)
  | none, some above => .ok (above, true)
  | _, _ => .error (.ferm "mod connlimit needs exactly one of connlimit-upto/connlimit-above for the nft backend")

/-- The count of a limit, which matches above it or up to it. -/
def connlimitCountExpr (rateOption : Unfold.RenderedOption) (above : Bool) : Except Raised String := do
  let (scalar, neg) ← unwrapValue rateOption.value
  let count ← connlimitCount scalar
  return "ct count " ++ (if above ≠ neg then "over " ++ count else count)

/-- The side whose address is the key of a limit. -/
def connlimitSide (rule : Unfold.RenderedRule) : Except Raised String :=
  match moduleOption rule "connlimit" "connlimit-saddr", moduleOption rule "connlimit" "connlimit-daddr" with
  | some _, some _ => .error (.ferm "mod connlimit cannot combine saddr and daddr for the nft backend")
  | _, some _ => .ok "daddr"
  | _, none => .ok "saddr"

/-- What the mask of a limit adds to its key. -/
def connlimitMask (domain : Family) (rule : Unfold.RenderedRule) : Except Raised String :=
  match moduleOption rule "connlimit" "connlimit-mask" with
  | some option => do
    let (length, _) ← unwrapValue option.value
    connlimitMaskText domain length
  | none => .ok ""

/-- `_connlimit_update`. -/
def connlimitUpdate (domain : Family) (rule : Unfold.RenderedRule) : Except Raised NftSetUpdate :=
  if domain = .ip ∨ domain = .ip6 then do
    let (rateOption, above) ← connlimitRate rule
    let countExpr ← connlimitCountExpr rateOption above
    let side ← connlimitSide rule
    let mask ← connlimitMask domain rule
    return {
      name := CONNLIMIT_SENTINEL
      keyExpr := domain.name ++ " " ++ side ++ mask ++ " " ++ countExpr
      setType := addrSetType domain
      verb := "add" }
  else .error (.ferm "mod connlimit needs the ip or ip6 family for nft")

/-- What an update writes between the braces. -/
def NftSetUpdate.element (u : NftSetUpdate) : String :=
  let timeout := match u.timeout with
    | some t => ["timeout " ++ t]
    | none => []
  let limit := match u.limit with
    | some l => ["limit " ++ l]
    | none => []
  String.intercalate " " ([u.keyExpr] ++ timeout ++ limit)

theorem NftSetUpdate.toText_eq (u : NftSetUpdate) : u.toText = u.verb ++ " @" ++ u.name ++ " \x7b " ++ u.element ++ " \x7d" := rfl

/-- The update counts connections. -/
def NftSetUpdate.countsConnections (u : NftSetUpdate) : Bool := hasText u.element " ct count "

/-! ## A rule -/

/-- What a rule is translated to besides its connection limit: the options that a branch in front of the limit's takes, what the
option at a position adds in another branch, the comment, and what the target puts in front of the matches and behind them. -/
structure Translation where
  prepare : Unfold.RenderedRule → Except Raised Unit
  earlier : Unfold.RenderedOption → Bool
  other : Unfold.RenderedRule → Nat → Except Raised (List NftStatement)
  target : Unfold.RenderedRule → Except Raised (List NftStatement × List NftStatement)
  comment : Unfold.RenderedRule → Option String

variable (digest : String → String) (translation : String → String → Translation) (skipped : Unfold.RenderedRule → Bool)

/-- The loop over the options: a rule has one limit, where the first option of its module stands. -/
def translateOptions (t : Translation) (domain : Family) (rule : Unfold.RenderedRule) (emitted : Bool) :
    List (Unfold.RenderedOption × Nat) → Except Raised (List NftStatement)
  | [] => .ok []
  | (option, position) :: rest => do
    if !t.earlier option && option.moduleName = some "connlimit" then
      if emitted then translateOptions t domain rule true rest
      else
        let update ← connlimitUpdate domain rule
        return .nftSetUpdate update :: (← translateOptions t domain rule true rest)
    else
      let added ← t.other rule position
      return added ++ (← translateOptions t domain rule emitted rest)

/-- `translate_rule`. -/
def translateRule (t : Translation) (domain : Family) (rule : Unfold.RenderedRule) : Except Raised NftRule := do
  t.prepare rule
  let matched ← translateOptions t domain rule false rule.options.zipIdx
  let (prepended, appended) ← t.target rule
  return { statements := prepended ++ matched ++ appended, comment := t.comment rule }

/-! ## Names -/

/-- What is hashed for the name of a set. -/
def connlimitContent (domain : Family) (table chain text : String) (ordinal : Nat) : String :=
  String.ofList (List.intercalate ['\x00'] [domain.name.toList, table.toList, chain.toList, text.toList, Nat.toDigits 10 ordinal])

/-- The name of a set. -/
def connlimitName (domain : Family) (table chain text : String) (ordinal : Nat) : String :=
  "connlimit_" ++ digest (connlimitContent domain table chain text ordinal)

/-- The statements of one rule: `done` are behind the loop, and have their names. -/
def finalizeStatements (setName : String → Nat → String) (ordinals : Ordinals String) (done : List NftStatement) :
    List NftStatement → Ordinals String × List NftStatement
  | [] => (ordinals, done)
  | .nftSetUpdate u :: rest =>
    if u.name = CONNLIMIT_SENTINEL then
      let text := String.intercalate " " ((done ++ .nftSetUpdate u :: rest).map NftStatement.toText)
      finalizeStatements setName (ordinals.take text) (done ++ [.nftSetUpdate { u with name := setName text (ordinals.next text) }]) rest
    else finalizeStatements setName ordinals (done ++ [.nftSetUpdate u]) rest
  | stmt :: rest => finalizeStatements setName ordinals (done ++ [stmt]) rest

/-- The loop over the rules. -/
def finalizeRules (setName : String → Nat → String) (ordinals : Ordinals String) : List NftRule → Ordinals String × List NftRule
  | [] => (ordinals, [])
  | rule :: rest =>
    let (ordinals, statements) := finalizeStatements setName ordinals [] rule.statements
    let (ordinals, rest) := finalizeRules setName ordinals rest
    (ordinals, { rule with statements } :: rest)

/-- `_finalize_connlimit_names`, with the texts and numbers the names were made of. -/
def finalizeConnlimitNames (domain : Family) (table chain : String) (rules : List NftRule) : Ordinals String × List NftRule :=
  finalizeRules (connlimitName digest domain table chain) Ordinals.empty rules

/-! ## The chains of a family -/

/-- `_NFT_CHAIN_RE`: a letter, then letters, digits, underscores and dashes. -/
def isNftChain : List Char → Bool
  | c :: cs => c.isAlpha && cs.all fun d => d.isAlphanum || d = '_' || d = '-'
  | [] => false

/-- `nft_chain_name`. -/
def nftChainName (table chain : String) : Except Raised String :=
  let name := if table = "filter" then chain else table ++ "_" ++ chain
  if isNftChain name.toList then .ok name
  else .error (.ferm ("chain name '" ++ chain ++ "' is not a valid nft identifier"))

/-- A table of the configuration, as far as its rules are rendered. -/
structure RenderedTable where
  preserves : Bool := false
  chains : Dict String (List Unfold.RenderedRule) := Dict.empty

/-- A chain that is rendered: its rules before the collapse, and the texts and numbers its names were made of. -/
structure NamedChain where
  table : String
  chain : String
  nftName : String
  named : List NftRule
  taken : List (String × Nat)

/-- The rules the chain gets. -/
def NamedChain.rules (c : NamedChain) : List NftRule := collapseChainRules c.named

/-- The loop of `render` over the chains of a table. -/
def renderChain (domain : Family) (table : String) (done : List NamedChain) (chain : String) (rules : List Unfold.RenderedRule) :
    Except Raised (List NamedChain) := do
  let nftName ← nftChainName table chain
  if done.any fun c => c.nftName = nftName then
    throw (.ferm ("nft chain name collision '" ++ nftName ++ "' in table " ++ NFT_TABLE_NAME))
  let translated ← (rules.filter fun rule => !skipped rule).mapM (translateRule (translation table chain) domain)
  let (ordinals, named) := finalizeConnlimitNames digest domain table chain translated
  return done ++ [⟨table, chain, nftName, named, ordinals.taken⟩]

/-- The loop of `render` over the tables, where `buildChains` are the checks of the chains of a table. -/
def renderTable (buildChains : String → Except Raised Unit) (domain : Family) (done : List NamedChain) (table : String)
    (info : RenderedTable) : Except Raised (List NamedChain) := do
  if info.preserves then throw (.ferm "@preserve not yet supported by nft backend")
  buildChains table
  (sortedNames info.chains.keys).foldlM
    (fun done chain => renderChain digest translation skipped domain table done chain ((info.chains.get? chain).getD [])) done

/-- The rules of a family, as `render` collects them. -/
def renderFamily (buildChains : String → Except Raised Unit) (domain : Family) (tables : Dict String RenderedTable) :
    Except Raised (List NamedChain) :=
  (sortedNames tables.keys).foldlM
    (fun done table => renderTable digest translation skipped buildChains domain done table ((tables.get? table).getD {})) []

/-! ## What is translated -/

theorem hasText_iff {text sub : String} : hasText text sub = true ↔ sub.toList <:+: text.toList := by
  rw [hasText, List.any_eq_true]
  constructor
  · rintro ⟨rest, hrest, hprefix⟩
    exact (List.isPrefixOf_iff_prefix.1 hprefix).isInfix.trans ((List.mem_tails _ _).1 hrest).isInfix
  · rintro ⟨before, after, htext⟩
    refine ⟨sub.toList ++ after, (List.mem_tails _ _).2 ⟨before, ?_⟩, List.isPrefixOf_iff_prefix.2 (List.prefix_append ..)⟩
    rw [← htext, List.append_assoc]

/-- The verb and the name of an update have no blank. -/
def NftSetUpdate.Worded (u : NftSetUpdate) : Prop := ' ' ∉ u.verb.toList ∧ ' ' ∉ u.name.toList

/-- What a limit is before it has a name, and what any other update is. -/
def NftSetUpdate.Fresh (u : NftSetUpdate) : Prop := u.Worded ∧ (u.countsConnections = true → u.name = CONNLIMIT_SENTINEL)

theorem connlimitCountExpr_spec {rateOption : Unfold.RenderedOption} {above : Bool} {text : String}
    (h : connlimitCountExpr rateOption above = .ok text) : ∃ count, text = "ct count " ++ count := by
  obtain ⟨⟨scalar, neg⟩, -, h⟩ := Except.bind_eq_ok.1 h
  obtain ⟨count, -, h⟩ := Except.bind_eq_ok.1 h
  exact ⟨_, (Except.ok.inj h).symm⟩

theorem connlimitUpdate_spec {domain : Family} {rule : Unfold.RenderedRule} {u : NftSetUpdate} (h : connlimitUpdate domain rule = .ok u) :
    u.name = CONNLIMIT_SENTINEL ∧ u.verb = "add" ∧ u.countsConnections = true := by
  unfold connlimitUpdate at h
  split at h
  · obtain ⟨⟨rateOption, above⟩, -, h⟩ := Except.bind_eq_ok.1 h
    obtain ⟨countExpr, hcount, h⟩ := Except.bind_eq_ok.1 h
    obtain ⟨side, -, h⟩ := Except.bind_eq_ok.1 h
    obtain ⟨mask, -, h⟩ := Except.bind_eq_ok.1 h
    obtain ⟨count, rfl⟩ := connlimitCountExpr_spec hcount
    cases h
    refine ⟨rfl, rfl, hasText_iff.2 ⟨(domain.name ++ " " ++ side ++ mask).toList, count.toList, ?_⟩⟩
    simp [NftSetUpdate.element, String.toList_append]
  · cases h

/-- Any update but a limit is one with a verb and a name that does not count connections. -/
structure Translation.OthersOnly (t : Translation) : Prop where
  other : ∀ rule position stmts, t.other rule position = .ok stmts →
    ∀ u, .nftSetUpdate u ∈ stmts → u.Worded ∧ u.countsConnections = false
  target : ∀ rule prepended appended, t.target rule = .ok (prepended, appended) →
    ∀ u, .nftSetUpdate u ∈ prepended ++ appended → u.Worded ∧ u.countsConnections = false

theorem translateOptions_spec {t : Translation} (ht : t.OthersOnly) {domain : Family} {rule : Unfold.RenderedRule}
    {options : List (Unfold.RenderedOption × Nat)} {emitted : Bool} {stmts : List NftStatement}
    (h : translateOptions t domain rule emitted options = .ok stmts) : ∀ u, .nftSetUpdate u ∈ stmts → u.Fresh := by
  induction options generalizing emitted stmts with
  | nil =>
    cases h
    exact nofun
  | cons option rest ih =>
    intro u hu
    obtain ⟨option, position⟩ := option
    rw [translateOptions] at h
    split at h
    · split at h
      · exact ih h u hu
      · obtain ⟨update, hupdate, h⟩ := Except.bind_eq_ok.1 h
        obtain ⟨stmts', hrest, h⟩ := Except.bind_eq_ok.1 h
        cases h
        rcases List.mem_cons.1 hu with hu | hu
        · cases hu
          obtain ⟨hname, hverb, -⟩ := connlimitUpdate_spec hupdate
          exact ⟨⟨by rw [hverb]; decide, by rw [hname]; decide⟩, fun _ => hname⟩
        · exact ih hrest u hu
    · obtain ⟨added, hadded, h⟩ := Except.bind_eq_ok.1 h
      obtain ⟨stmts', hrest, h⟩ := Except.bind_eq_ok.1 h
      cases h
      rcases List.mem_append.1 hu with hu | hu
      · obtain ⟨hworded, hcounts⟩ := ht.other rule position added hadded u hu
        exact ⟨hworded, fun h => absurd h (Bool.eq_false_iff.1 hcounts)⟩
      · exact ih hrest u hu

/-- The updates of a rule that is translated are limits without a name, and others. -/
theorem translateRule_spec {t : Translation} (ht : t.OthersOnly) {domain : Family} {rule : Unfold.RenderedRule} {r : NftRule}
    (h : translateRule t domain rule = .ok r) : ∀ u, .nftSetUpdate u ∈ r.statements → u.Fresh := by
  obtain ⟨_, -, h⟩ := Except.bind_eq_ok.1 h
  obtain ⟨matched, hmatched, h⟩ := Except.bind_eq_ok.1 h
  obtain ⟨⟨prepended, appended⟩, htarget, h⟩ := Except.bind_eq_ok.1 h
  cases h
  intro u hu
  by_cases hu' : .nftSetUpdate u ∈ prepended ++ appended
  · obtain ⟨hworded, hcounts⟩ := ht.target rule prepended appended htarget u hu'
    exact ⟨hworded, fun h => absurd h (Bool.eq_false_iff.1 hcounts)⟩
  · refine translateOptions_spec ht hmatched u ?_
    simp only [List.mem_append, not_or] at hu hu'
    tauto

/-! ## What is named -/

/-- What an update is once the limits have their names. -/
def NftSetUpdate.Named (u : NftSetUpdate) : Prop := u.Worded ∧ u.name ≠ CONNLIMIT_SENTINEL

/-- The sets of the limits of a statement. -/
def NftStatement.connlimits : NftStatement → List String
  | .nftSetUpdate u => if u.countsConnections then [u.name] else []
  | _ => []

/-- The sets of the limits of a rule. -/
def NftRule.connlimits (r : NftRule) : List String := r.statements.flatMap NftStatement.connlimits

/-- The sets of the limits of a list of rules. -/
def connlimits (rules : List NftRule) : List String := rules.flatMap NftRule.connlimits

theorem finalizeStatements_spec {setName : String → Nat → String} (hname : ∀ text n, ' ' ∉ (setName text n).toList)
    (hsentinel : ∀ text n, setName text n ≠ CONNLIMIT_SENTINEL) (ordinals : Ordinals String) (done stmts : List NftStatement)
    (hfresh : ∀ u, .nftSetUpdate u ∈ stmts → u.Fresh) :
    ∃ taken named, (finalizeStatements setName ordinals done stmts).1.taken = ordinals.taken ++ taken ∧
      (finalizeStatements setName ordinals done stmts).2 = done ++ named ∧
      (∀ u, .nftSetUpdate u ∈ named → u.Named) ∧
      (named.flatMap NftStatement.connlimits).Sublist (taken.map fun p => setName p.1 p.2) := by
  have hcons : ∀ (stmt : NftStatement) (rest : List NftStatement), (∀ u, stmt = .nftSetUpdate u → u.Named) →
      (∀ u, .nftSetUpdate u ∈ rest → u.Named) → ∀ u, .nftSetUpdate u ∈ stmt :: rest → u.Named := by
    intro stmt rest hstmt hrest u hu
    rcases List.mem_cons.1 hu with hu | hu
    · exact hstmt u hu.symm
    · exact hrest u hu
  fun_induction finalizeStatements setName ordinals done stmts with
  | case1 ordinals done => exact ⟨[], [], by simp, by simp, nofun, List.Sublist.refl _⟩
  | case2 ordinals done u rest hu text ih =>
    obtain ⟨taken, named, htaken, hdone, hnamed, hsub⟩ := ih fun u hu => hfresh u (List.mem_cons_of_mem _ hu)
    refine ⟨(text, ordinals.next text) :: taken, .nftSetUpdate { u with name := setName text (ordinals.next text) } :: named, ?_, ?_,
      hcons _ _ ?_ hnamed, ?_⟩
    · rw [htaken, Ordinals.taken_take, List.append_assoc, List.singleton_append]
    · rw [hdone, List.append_assoc, List.singleton_append]
    · rintro v hv
      cases hv
      exact ⟨⟨(hfresh u List.mem_cons_self).1.1, hname _ _⟩, hsentinel _ _⟩
    · rw [List.flatMap_cons, List.map_cons, NftStatement.connlimits]
      split
      · exact hsub.cons_cons _
      · exact hsub.cons _
  | case3 ordinals done u rest hu ih =>
    obtain ⟨taken, named, htaken, hdone, hnamed, hsub⟩ := ih fun u hu => hfresh u (List.mem_cons_of_mem _ hu)
    obtain ⟨hworded, hcounts⟩ := hfresh u List.mem_cons_self
    refine ⟨taken, .nftSetUpdate u :: named, htaken, ?_, hcons _ _ ?_ hnamed, ?_⟩
    · rw [hdone, List.append_assoc, List.singleton_append]
    · rintro v hv
      cases hv
      exact ⟨hworded, hu⟩
    · rw [List.flatMap_cons, NftStatement.connlimits, if_neg fun h => hu (hcounts h)]
      exact hsub
  | case4 ordinals done stmt rest hstmt ih =>
    obtain ⟨taken, named, htaken, hdone, hnamed, hsub⟩ := ih fun u hu => hfresh u (List.mem_cons_of_mem _ hu)
    refine ⟨taken, stmt :: named, htaken, ?_, hcons _ _ (fun u hu => absurd hu (hstmt u)) hnamed, ?_⟩
    · rw [hdone, List.append_assoc, List.singleton_append]
    · rw [List.flatMap_cons, show stmt.connlimits = [] by cases stmt <;> first | rfl | exact absurd rfl (hstmt _)]
      exact hsub

theorem finalizeRules_spec {setName : String → Nat → String} (hname : ∀ text n, ' ' ∉ (setName text n).toList)
    (hsentinel : ∀ text n, setName text n ≠ CONNLIMIT_SENTINEL) (ordinals : Ordinals String) (rules : List NftRule)
    (hfresh : ∀ r ∈ rules, ∀ u, .nftSetUpdate u ∈ r.statements → u.Fresh) :
    ∃ taken, (finalizeRules setName ordinals rules).1.taken = ordinals.taken ++ taken ∧
      (∀ r ∈ (finalizeRules setName ordinals rules).2, ∀ u, .nftSetUpdate u ∈ r.statements → u.Named) ∧
      (connlimits (finalizeRules setName ordinals rules).2).Sublist (taken.map fun p => setName p.1 p.2) := by
  induction rules generalizing ordinals with
  | nil => exact ⟨[], by simp [finalizeRules], nofun, List.Sublist.refl _⟩
  | cons rule rest ih =>
    obtain ⟨hrule, hrest⟩ := List.forall_mem_cons.1 hfresh
    obtain ⟨first, named, hfirst, hstatements, hnamed, hsub⟩ :=
      finalizeStatements_spec hname hsentinel ordinals [] rule.statements hrule
    obtain ⟨others, hothers, hnamed', hsub'⟩ := ih (finalizeStatements setName ordinals [] rule.statements).1 hrest
    refine ⟨first ++ others, ?_, ?_, ?_⟩
    · rw [finalizeRules, hothers, hfirst, List.append_assoc]
    · rw [finalizeRules]
      refine List.forall_mem_cons.2 ⟨fun u hu => hnamed u ?_, hnamed'⟩
      rwa [hstatements, List.nil_append] at hu
    · rw [finalizeRules, List.map_append, connlimits, List.flatMap_cons]
      refine List.Sublist.append ?_ hsub'
      rwa [NftRule.connlimits, hstatements, List.nil_append]

/-! ## Contents -/

theorem nul_not_mem_toDigits (n : Nat) : '\x00' ∉ Nat.toDigits 10 n := not_mem_toDigits (by decide) (by decide) (by decide) n

/-- What is hashed tells the chain, the text and the number, when the chain and its table have no zero byte. -/
theorem connlimitContent_inj {domain : Family} {table table' chain chain' text text' : String} {n n' : Nat}
    (htable : '\x00' ∉ table.toList) (htable' : '\x00' ∉ table'.toList) (hchain : '\x00' ∉ chain.toList)
    (hchain' : '\x00' ∉ chain'.toList)
    (h : connlimitContent domain table chain text n = connlimitContent domain table' chain' text' n') :
    table = table' ∧ chain = chain' ∧ text = text' ∧ n = n' := by
  have hfront : ∀ {a a' b b' : List Char}, '\x00' ∉ a → '\x00' ∉ a' → a ++ '\x00' :: b = a' ++ '\x00' :: b' → a = a' ∧ b = b' := by
    intro a a' b b' ha ha' he
    have hpart := congrArg (partitionAt '\x00') he
    rw [partitionAt_append ha, partitionAt_append ha'] at hpart
    exact Prod.mk.inj (Option.some.inj hpart)
  have hcontent : ∀ (table chain text : String) (n : Nat), (connlimitContent domain table chain text n).toList =
      domain.name.toList ++ '\x00' :: (table.toList ++ '\x00' :: (chain.toList ++ '\x00' :: (text.toList ++ '\x00' :: Nat.toDigits 10 n))) := by
    intro table chain text n
    simp [connlimitContent, List.intercalate, List.intersperse]
  have hlist := congrArg String.toList h
  rw [hcontent, hcontent] at hlist
  obtain ⟨ht, hlist⟩ := hfront htable htable' (List.cons.inj (List.append_cancel_left hlist)).2
  obtain ⟨hc, hlist⟩ := hfront hchain hchain' hlist
  -- the text may have zero bytes itself, the number has none: they are told apart from the end
  have hback := congrArg List.reverse hlist
  simp only [List.reverse_append, List.reverse_cons, List.append_assoc, List.singleton_append] at hback
  obtain ⟨hn, htext⟩ := hfront (by simpa using nul_not_mem_toDigits n) (by simpa using nul_not_mem_toDigits n') hback
  refine ⟨String.toList_inj.1 ht, String.toList_inj.1 hc, String.toList_inj.1 (List.reverse_injective htext), ?_⟩
  have hvalue := congrArg (uintValue 10) (List.reverse_injective hn)
  rwa [uintValue_toDigits (by decide) (by decide), uintValue_toDigits (by decide) (by decide)] at hvalue

/-! ## The names of a family -/

/-- What was hashed for the names of a chain. -/
def NamedChain.hashed (domain : Family) (c : NamedChain) : List String :=
  c.taken.map fun p => connlimitContent domain c.table c.chain p.1 p.2

/-- What the loop of `render` knows about a chain. -/
structure NamedChain.WellNamed (domain : Family) (c : NamedChain) : Prop where
  nftName : nftChainName c.table c.chain = .ok c.nftName
  nodup : c.taken.Nodup
  named : ∀ r ∈ c.named, ∀ u, .nftSetUpdate u ∈ r.statements → u.Named
  names : (connlimits c.named).Sublist ((c.hashed domain).map fun content => "connlimit_" ++ digest content)

/-- What the loop of `render` knows about the chains so far. -/
structure FamilyNamed (domain : Family) (chains : List NamedChain) : Prop where
  wellNamed : ∀ c ∈ chains, c.WellNamed digest domain
  nftNames : (chains.map NamedChain.nftName).Nodup

/-- The characters of a name of a chain. -/
theorem nul_not_mem_of_isNftChain {name : List Char} (h : isNftChain name = true) : '\x00' ∉ name := by
  cases name with
  | nil => exact List.not_mem_nil
  | cons c cs =>
    simp only [isNftChain, Bool.and_eq_true, List.all_eq_true] at h
    rintro (_ | ⟨_, hmem⟩)
    · exact absurd h.1 (by decide)
    · exact absurd (h.2 _ hmem) (by decide)

theorem nul_not_mem_of_nftChainName {table chain name : String} (h : nftChainName table chain = .ok name) :
    '\x00' ∉ table.toList ∧ '\x00' ∉ chain.toList := by
  unfold nftChainName at h
  split at h
  · rename_i htable
    dsimp only at h
    split at h
    · rename_i hchain
      exact ⟨by rw [htable]; decide, nul_not_mem_of_isNftChain hchain⟩
    · cases h
  · dsimp only at h
    split at h
    · rename_i hchain
      have hnul := nul_not_mem_of_isNftChain hchain
      rw [String.toList_append, String.toList_append] at hnul
      simp only [List.mem_append, not_or] at hnul
      exact ⟨hnul.1.1, hnul.2⟩
    · cases h

variable {digest translation skipped}

theorem finalizeConnlimitNames_spec (hword : ∀ content, ' ' ∉ (digest content).toList) {domain : Family} {table chain nftName : String}
    {rules : List NftRule} (hname : nftChainName table chain = .ok nftName)
    (hfresh : ∀ r ∈ rules, ∀ u, .nftSetUpdate u ∈ r.statements → u.Fresh) :
    NamedChain.WellNamed digest domain ⟨table, chain, nftName, (finalizeConnlimitNames digest domain table chain rules).2,
      (finalizeConnlimitNames digest domain table chain rules).1.taken⟩ := by
  have hblank : ∀ text n, ' ' ∉ (connlimitName digest domain table chain text n).toList := by
    intro text n
    rw [connlimitName, String.toList_append, List.mem_append, not_or]
    exact ⟨by decide, hword _⟩
  have hsentinel : ∀ text n, connlimitName digest domain table chain text n ≠ CONNLIMIT_SENTINEL := by
    intro text n he
    have hlist := congrArg String.toList he
    rw [connlimitName, String.toList_append] at hlist
    cases hlist
  obtain ⟨taken, htaken, hnamed, hsub⟩ := finalizeRules_spec hblank hsentinel Ordinals.empty rules hfresh
  refine ⟨hname, (finalizeConnlimitNames digest domain table chain rules).1.nodup, hnamed, ?_⟩
  rw [Ordinals.taken_empty, List.nil_append] at htaken
  simp only [NamedChain.hashed, finalizeConnlimitNames, htaken, List.map_map]
  exact hsub

theorem renderChain_spec (hother : ∀ table chain, (translation table chain).OthersOnly)
    (hword : ∀ content, ' ' ∉ (digest content).toList) {domain : Family} {table chain : String} {done chains : List NamedChain}
    {rules : List Unfold.RenderedRule} (h : renderChain digest translation skipped domain table done chain rules = .ok chains)
    (hdone : FamilyNamed digest domain done) : FamilyNamed digest domain chains := by
  obtain ⟨nftName, hname, h⟩ := Except.bind_eq_ok.1 h
  split at h
  · cases h
  · rename_i hnew
    obtain ⟨translated, htranslated, h⟩ := Except.bind_eq_ok.1 h
    cases h
    have hfresh : ∀ r ∈ translated, ∀ u, .nftSetUpdate u ∈ r.statements → u.Fresh := by
      intro r hr
      obtain ⟨rule, -, hrule⟩ := (mem_mapM_ok_iff htranslated).1 hr
      exact translateRule_spec (hother table chain) hrule
    refine ⟨fun c hc => ?_, ?_⟩
    · rcases List.mem_append.1 hc with hc | hc
      · exact hdone.wellNamed c hc
      · rw [List.mem_singleton.1 hc]
        exact finalizeConnlimitNames_spec hword hname hfresh
    · rw [List.map_append, List.map_singleton, List.nodup_append]
      refine ⟨hdone.nftNames, List.nodup_singleton _, fun a ha b hb he => ?_⟩
      obtain ⟨c, hc, rfl⟩ := List.mem_map.1 ha
      exact hnew (List.any_eq_true.2 ⟨c, hc, decide_eq_true (he.trans (List.mem_singleton.1 hb))⟩)

theorem renderFamily_spec (hother : ∀ table chain, (translation table chain).OthersOnly)
    (hword : ∀ content, ' ' ∉ (digest content).toList) {buildChains : String → Except Raised Unit} {domain : Family}
    {tables : Dict String RenderedTable} {chains : List NamedChain}
    (h : renderFamily digest translation skipped buildChains domain tables = .ok chains) : FamilyNamed digest domain chains := by
  refine foldlM_ok_invariant (fun done table done' hstep hdone => ?_) h ⟨nofun, List.nodup_nil⟩
  unfold renderTable at hstep
  split at hstep
  · cases hstep
  · obtain ⟨_, -, hstep⟩ := Except.bind_eq_ok.1 hstep
    exact foldlM_ok_invariant (fun _ _ _ hstep hdone => renderChain_spec hother hword hstep hdone) hstep hdone

/-- Nothing is hashed twice in a family. -/
theorem FamilyNamed.nodup_hashed {domain : Family} {chains : List NamedChain} (h : FamilyNamed digest domain chains) :
    (chains.flatMap (NamedChain.hashed domain)).Nodup := by
  have hnul := fun c hc => nul_not_mem_of_nftChainName (h.wellNamed c hc).nftName
  refine List.nodup_flatMap.2 ⟨fun c hc => ?_, ?_⟩
  · refine (h.wellNamed c hc).nodup.map_on fun p _ q _ he => ?_
    obtain ⟨-, -, htext, hn⟩ := connlimitContent_inj (hnul c hc).1 (hnul c hc).1 (hnul c hc).2 (hnul c hc).2 he
    exact Prod.ext htext hn
  · refine (List.pairwise_map.1 h.nftNames).imp_of_mem fun {c d} hc hd hne => List.disjoint_left.2 fun content hcc hcd => hne ?_
    obtain ⟨p, -, rfl⟩ := List.mem_map.1 hcc
    obtain ⟨q, -, he⟩ := List.mem_map.1 hcd
    obtain ⟨htable, hchain, -⟩ := connlimitContent_inj (hnul d hd).1 (hnul c hc).1 (hnul d hd).2 (hnul c hc).2 he
    have hc' := (h.wellNamed c hc).nftName
    rw [← htable, ← hchain, (h.wellNamed d hd).nftName] at hc'
    exact (Except.ok.inj hc').symm

/-- No two limits of a family have the same set. -/
theorem FamilyNamed.nodup_connlimits {domain : Family} {chains : List NamedChain} (h : FamilyNamed digest domain chains)
    (hdigest : ∀ a ∈ chains.flatMap (NamedChain.hashed domain), ∀ b ∈ chains.flatMap (NamedChain.hashed domain),
      digest a = digest b → a = b) : (chains.flatMap fun c => connlimits c.named).Nodup := by
  have hsub : (chains.flatMap fun c => connlimits c.named).Sublist
      ((chains.flatMap (NamedChain.hashed domain)).map fun content => "connlimit_" ++ digest content) := by
    rw [List.map_flatMap]
    exact List.Sublist.flatMap_right _ fun c hc => (h.wellNamed c hc).names
  refine hsub.nodup (h.nodup_hashed.map_on fun a ha b hb he => hdigest a ha b hb ?_)
  have hlist := congrArg String.toList he
  rw [String.toList_append, String.toList_append] at hlist
  exact String.toList_inj.1 (List.append_cancel_left hlist)

/-! ## The collapse -/

theorem element_eq_of_toText_eq {u v : NftSetUpdate} (hu : u.Worded) (hv : v.Worded) (h : u.toText = v.toText) :
    u.name = v.name ∧ u.element = v.element := by
  have hblank : ∀ {a a' b b' : List Char}, ' ' ∉ a → ' ' ∉ a' → a ++ ' ' :: b = a' ++ ' ' :: b' → a = a' ∧ b = b' := by
    intro a a' b b' ha ha' he
    have hpart := congrArg (partitionAt ' ') he
    rw [partitionAt_append ha, partitionAt_append ha'] at hpart
    exact Prod.mk.inj (Option.some.inj hpart)
  have htext : ∀ u : NftSetUpdate, u.toText.toList =
      u.verb.toList ++ ' ' :: '@' :: (u.name.toList ++ ' ' :: '\x7b' :: ' ' :: (u.element.toList ++ [' ', '\x7d'])) := by
    intro u
    simp [NftSetUpdate.toText_eq]
  have hlist := congrArg String.toList h
  rw [htext, htext] at hlist
  obtain ⟨-, hlist⟩ := hblank hu.1 hv.1 hlist
  obtain ⟨hname, hlist⟩ := hblank hu.2 hv.2 (List.cons.inj hlist).2
  have helement := (List.cons.inj (List.cons.inj hlist).2).2
  exact ⟨String.toList_inj.1 hname, String.toList_inj.1 (List.append_cancel_right helement)⟩

/-- The updates of the rules have verbs and names without blanks. -/
def WordedRules (rules : List NftRule) : Prop := ∀ r ∈ rules, ∀ u, .nftSetUpdate u ∈ r.statements → u.Worded

/-- Equal statements have their limits in the same sets. -/
theorem connlimits_eq_of_stmtEqual {a b : NftStatement} (ha : ∀ u, a = .nftSetUpdate u → u.Worded)
    (hb : ∀ u, b = .nftSetUpdate u → u.Worded) (h : stmtEqual a b = true) : a.connlimits = b.connlimits := by
  rcases a with _ | _ | ⟨_, _⟩ | _ | u | _ | _ <;> rcases b with _ | _ | ⟨_, _⟩ | _ | v | _ | _
  case nftSetUpdate.nftSetUpdate =>
    have htext : u.toText = v.toText := of_decide_eq_true h
    obtain ⟨hname, helement⟩ := element_eq_of_toText_eq (ha u rfl) (hb v rfl) htext
    rw [NftStatement.connlimits, NftStatement.connlimits, NftSetUpdate.countsConnections, NftSetUpdate.countsConnections, hname, helement]
  all_goals first | rfl | cases h

/-- Rules that differ in the operands of a match have their limits in the same sets. -/
theorem connlimits_eq_of_sameBut {axis : Nat} {a b : NftRule} (h : SameBut axis a b)
    (ha : ∀ u, .nftSetUpdate u ∈ a.statements → u.Worded) (hb : ∀ u, .nftSetUpdate u ∈ b.statements → u.Worded) :
    a.connlimits = b.connlimits := by
  rw [NftRule.connlimits, NftRule.connlimits, List.flatMap_def, List.flatMap_def]
  congr 1
  apply List.ext_getElem (by rw [List.length_map, List.length_map, h.length])
  intro k hka hkb
  rw [List.length_map] at hka hkb
  rw [List.getElem_map, List.getElem_map]
  have hka' := List.getElem?_eq_getElem hka
  have hkb' := List.getElem?_eq_getElem hkb
  by_cases hk : k = axis
  · obtain ⟨key, ma, mb, hma, hmb, -⟩ := h.selector
    rw [← hk, hka', Option.some.injEq] at hma
    rw [← hk, hkb', Option.some.injEq] at hmb
    rw [hma, hmb]
    rfl
  · exact connlimits_eq_of_stmtEqual (fun u he => ha u (he ▸ List.getElem_mem hka)) (fun u he => hb u (he ▸ List.getElem_mem hkb))
      (h.others k hk _ _ hka' hkb')

/-- A merged run has no limit: its rules would share it. -/
theorem connlimits_eq_nil_of_isRun {run : List NftRule} (hrun : IsRun joinsRun run) (hlength : 2 ≤ run.length) (hworded : WordedRules run)
    (hnodup : (connlimits run).Nodup) : ∀ r ∈ run, r.connlimits = [] := by
  match run, hlength with
  | base :: second :: rest, _ =>
    obtain ⟨axis, haxis⟩ := exists_axis_of_isRun hrun
    have hsame : ∀ r ∈ second :: rest, base.connlimits = r.connlimits := fun r hr =>
      connlimits_eq_of_sameBut (sameBut_of_collapseAxis (haxis r hr)) (hworded base List.mem_cons_self)
        (hworded r (List.mem_cons_of_mem _ hr))
    have hbase : base.connlimits = [] := by
      rw [connlimits, List.flatMap_cons, List.flatMap_cons, ← hsame second List.mem_cons_self] at hnodup
      have hdisjoint := (List.nodup_append.1 hnodup).2.2
      refine List.eq_nil_iff_forall_not_mem.2 fun name hmem => ?_
      exact hdisjoint name hmem name (List.mem_append_left _ hmem) rfl
    intro r hr
    rcases List.mem_cons.1 hr with rfl | hr
    · exact hbase
    · rw [← hsame r hr, hbase]

/-- The statements of a merged run are those of its first rule, but for a match. -/
theorem mem_mergeRun_statements {base : NftRule} {rest : List NftRule} {axis : Nat} {stmt : NftStatement}
    (h : stmt ∈ (mergeRun base rest axis).statements) : stmt ∈ base.statements ∨ ∃ m, stmt = .nftMatch m := by
  unfold mergeRun at h
  split at h
  · rcases List.mem_or_eq_of_mem_set h with h | h
    · exact .inl h
    · exact .inr ⟨_, h⟩
  · exact .inl h

/-- The statements of a closed run are statements of the run, or matches. -/
theorem mem_closeRun_statements {run : List NftRule} {r : NftRule} {stmt : NftStatement} (hr : r ∈ closeRun run)
    (h : stmt ∈ r.statements) : (∃ r ∈ run, stmt ∈ r.statements) ∨ ∃ m, stmt = .nftMatch m := by
  unfold closeRun at hr
  split at hr
  · rename_i base second rest
    split at hr
    · rw [List.mem_singleton.1 hr] at h
      rcases mem_mergeRun_statements h with h | h
      · exact .inl ⟨base, List.mem_cons_self, h⟩
      · exact .inr h
    · exact .inl ⟨r, hr, h⟩
  · exact .inl ⟨r, hr, h⟩

theorem WordedRules.collapseOnePass {rules : List NftRule} (h : WordedRules rules) : WordedRules (collapseOnePass rules).1 := by
  intro r hr u hu
  obtain ⟨run, hrun, hr⟩ := List.mem_flatMap.1 hr
  rcases mem_closeRun_statements hr hu with ⟨r', hr', hu'⟩ | ⟨m, hm⟩
  · exact h r' (mem_of_mem_greedyRuns hrun hr') u hu'
  · cases hm

/-- The limits of the runs are the limits of the rules. -/
theorem flatMap_greedyRuns (joins : List NftRule → NftRule → Bool) (rules : List NftRule) :
    (greedyRuns joins rules).flatMap connlimits = connlimits rules := by
  conv_rhs => rw [← flatten_greedyRuns joins rules, ← List.flatMap_id, connlimits, List.flatMap_assoc]
  rfl

theorem connlimits_closeRun {run : List NftRule} (hrun : IsRun joinsRun run) (hworded : WordedRules run)
    (hnodup : (connlimits run).Nodup) : connlimits (closeRun run) = connlimits run := by
  rcases Nat.lt_or_ge run.length 2 with hlength | hlength
  · match run, hlength with
    | [], _ => rfl
    | [_], _ => rfl
  · have hnone := connlimits_eq_nil_of_isRun hrun hlength hworded hnodup
    rw [connlimits, connlimits, List.flatMap_eq_nil_iff.2 hnone, List.flatMap_eq_nil_iff]
    intro r hr
    refine List.flatMap_eq_nil_iff.2 fun stmt hstmt => ?_
    rcases mem_closeRun_statements hr hstmt with ⟨r', hr', hstmt'⟩ | ⟨m, rfl⟩
    · exact List.flatMap_eq_nil_iff.1 (hnone r' hr') stmt hstmt'
    · rfl

/-- The rules of a run, with what is known of the list. -/
theorem of_mem_greedyRuns {joins : List NftRule → NftRule → Bool} {rules run : List NftRule} (h : run ∈ greedyRuns joins rules)
    (hworded : WordedRules rules) (hnodup : (connlimits rules).Nodup) : WordedRules run ∧ (connlimits run).Nodup := by
  constructor
  · exact fun r hr => hworded r (mem_of_mem_greedyRuns h hr)
  · rw [← flatMap_greedyRuns joins] at hnodup
    exact (List.nodup_flatMap.1 hnodup).1 run h

theorem connlimits_collapseOnePass {rules : List NftRule} (hworded : WordedRules rules) (hnodup : (connlimits rules).Nodup) :
    connlimits (collapseOnePass rules).1 = connlimits rules := by
  calc connlimits (collapseOnePass rules).1 = (greedyRuns joinsRun rules).flatMap fun run => connlimits (closeRun run) := by
        rw [connlimits, collapseOnePass, List.flatMap_assoc]
        rfl
    _ = (greedyRuns joinsRun rules).flatMap connlimits := by
        refine List.flatMap_congr fun run hrun => ?_
        obtain ⟨hworded', hnodup'⟩ := of_mem_greedyRuns hrun hworded hnodup
        exact connlimits_closeRun (isRun_of_mem hrun) hworded' hnodup'
    _ = connlimits rules := flatMap_greedyRuns joinsRun rules

/-- The rules after a number of set passes. -/
def setPasses (n : Nat) (rules : List NftRule) : List NftRule := (fun rules => (collapseOnePass rules).1)^[n] rules

theorem setPasses_keep {rules : List NftRule} (hworded : WordedRules rules) (hnodup : (connlimits rules).Nodup) (n : Nat) :
    WordedRules (setPasses n rules) ∧ connlimits (setPasses n rules) = connlimits rules := by
  induction n with
  | zero => exact ⟨hworded, rfl⟩
  | succ n ih =>
    rw [setPasses, Function.iterate_succ_apply']
    exact ⟨ih.1.collapseOnePass, (connlimits_collapseOnePass ih.1 (ih.2 ▸ hnodup)).trans ih.2⟩

/-- The loop stops after some number of set passes. -/
theorem exists_collapseSets_eq_setPasses (fuel : Nat) (rules : List NftRule) : ∃ n, collapseSets fuel rules = setPasses n rules := by
  induction fuel generalizing rules with
  | zero => exact ⟨0, rfl⟩
  | succ fuel ih =>
    rw [collapseSets]
    split
    · obtain ⟨n, hn⟩ := ih (collapseOnePass rules).1
      exact ⟨n + 1, hn⟩
    · exact ⟨1, rfl⟩

/-- A rule that becomes an entry of a verdict map has no limit. -/
theorem connlimits_of_vmapCandidate {r : NftRule} (h : (vmapCandidate r).isSome = true) : r.connlimits = [] := by
  unfold vmapCandidate at h
  split at h
  · cases h
  · split at h
    · rename_i hstatements
      rw [NftRule.connlimits, hstatements]
      rfl
    · cases h

theorem connlimits_eq_nil_of_isRun_vmap {run : List NftRule} (hrun : IsRun joinsVmap run) (hlength : 2 ≤ run.length) :
    ∀ r ∈ run, r.connlimits = [] := fun r hr => connlimits_of_vmapCandidate (vmapCandidate_of_isRun hrun hlength r hr)

theorem connlimits_collapseVmap (rules : List NftRule) : connlimits (collapseVmap rules) = connlimits rules := by
  rw [collapseVmap, connlimits, List.flatMap_assoc, ← flatMap_greedyRuns joinsVmap rules]
  refine List.flatMap_congr fun run hrun => ?_
  rcases Nat.lt_or_ge run.length 2 with hlength | hlength
  · cases run with
    | nil => rfl
    | cons r rest =>
      obtain rfl : rest = [] := List.eq_nil_of_length_eq_zero (by rw [List.length_cons] at hlength; omega)
      rfl
  · have hnone := connlimits_eq_nil_of_isRun_vmap (isRun_of_mem hrun) hlength
    rw [connlimits, List.flatMap_eq_nil_iff.2 hnone]
    rcases closeVmap_cases (isRun_of_mem hrun) with ⟨r, rfl, -⟩ | ⟨key, pairs, hclose⟩
    · exact absurd hlength (by simp)
    · rw [hclose]
      rfl

/-- After the names are given no update has the name that stands for none, the limits of a family have pairwise different sets, and no
pass over a chain merges a rule with a limit with another rule: the rules that are rendered have the limits they had. -/
theorem connlimit_state_not_shared {domain : Family} {tables : Dict String RenderedTable} {buildChains : String → Except Raised Unit}
    {chains : List NamedChain} (hother : ∀ table chain, (translation table chain).OthersOnly)
    (hword : ∀ content, ' ' ∉ (digest content).toList)
    (h : renderFamily digest translation skipped buildChains domain tables = .ok chains)
    (hdigest : ∀ a ∈ chains.flatMap (NamedChain.hashed domain), ∀ b ∈ chains.flatMap (NamedChain.hashed domain),
      digest a = digest b → a = b) :
    (∀ c ∈ chains, ∀ r ∈ c.named, ∀ u, .nftSetUpdate u ∈ r.statements → u.name ≠ CONNLIMIT_SENTINEL) ∧
      (chains.flatMap fun c => connlimits c.named).Nodup ∧
      ∀ c ∈ chains,
        (∀ n, ∀ run ∈ greedyRuns joinsRun (setPasses n c.named), 2 ≤ run.length → ∀ r ∈ run, r.connlimits = []) ∧
          (∀ run ∈ greedyRuns joinsVmap (collapseSets c.named.length c.named), 2 ≤ run.length → ∀ r ∈ run, r.connlimits = []) ∧
            connlimits c.rules = connlimits c.named := by
  have hfamily := renderFamily_spec hother hword h
  have hnodup := hfamily.nodup_connlimits hdigest
  refine ⟨fun c hc r hr u hu => ((hfamily.wellNamed c hc).named r hr u hu).2, hnodup, fun c hc => ?_⟩
  have hworded : WordedRules c.named := fun r hr u hu => ((hfamily.wellNamed c hc).named r hr u hu).1
  have hchain : (connlimits c.named).Nodup := (List.nodup_flatMap.1 hnodup).1 c hc
  refine ⟨fun n run hrun hlength => ?_, fun run hrun hlength => connlimits_eq_nil_of_isRun_vmap (isRun_of_mem hrun) hlength, ?_⟩
  · obtain ⟨hpass, hsame⟩ := setPasses_keep hworded hchain n
    obtain ⟨hrun', hrun''⟩ := of_mem_greedyRuns hrun hpass (hsame ▸ hchain)
    exact connlimits_eq_nil_of_isRun (isRun_of_mem hrun) hlength hrun' hrun''
  · obtain ⟨n, hn⟩ := exists_collapseSets_eq_setPasses c.named.length c.named
    rw [NamedChain.rules, collapseChainRules, connlimits_collapseVmap, hn]
    exact (setPasses_keep hworded hchain n).2

/-! ### A family with limits -/

/-- A translation with ports and one target. -/
def portTranslation : Translation where
  prepare := fun _ => .ok ()
  earlier := fun option => option.kind ≠ .option
  other := fun rule position =>
    match rule.options[position]? with
    | some ⟨"dport", .scalar port, _, _⟩ => .ok [.nftMatch (.single "tcp dport" port (by decide))]
    | _ => .ok []
  target := fun _ => .ok ([], [.nftVerdict "drop"])
  comment := fun _ => none

/-- `proto tcp dport … mod connlimit connlimit-above 3 DROP`. -/
def limitRule (port : String) : Unfold.RenderedRule where
  options := [⟨"match", .scalar "connlimit", .matchModule, none⟩, ⟨"connlimit-above", .scalar "3", .option, some "connlimit"⟩,
    ⟨"dport", .scalar port, .option, none⟩, ⟨"jump", .scalar "DROP", .target, none⟩]
  script := none

/-- Equal rules in one chain and in two, and one that differs in its port. -/
def limitTables : Dict String RenderedTable :=
  Dict.empty.set "filter" { chains := (Dict.empty.set "INPUT" [limitRule "22", limitRule "22", limitRule "80"]).set "FORWARD" [limitRule "22"] }

/-- The digests of what is hashed for them. -/
def limitDigests : List (String × String) :=
  let text (port : String) := "add @? \x7b ip saddr ct count over 3 \x7d tcp dport " ++ port ++ " drop"
  [(connlimitContent .ip "filter" "FORWARD" (text "22") 0, "db19c81ac33b"),
    (connlimitContent .ip "filter" "INPUT" (text "22") 0, "1d2326be39a2"),
    (connlimitContent .ip "filter" "INPUT" (text "22") 1, "ca5afd802bf8"),
    (connlimitContent .ip "filter" "INPUT" (text "80") 0, "2328969bff66")]

/-- What `render` makes of the family. -/
def renderedLimits : Except Raised (List NamedChain) :=
  renderFamily (fun content => (limitDigests.lookup content).getD "") (fun _ _ => portTranslation) (fun _ => false) (fun _ => .ok ()) .ip
    limitTables

theorem connlimit_state_not_shared_equal_rules : ∃ chains, renderedLimits = .ok chains ∧
    (chains.flatMap fun c => connlimits c.named) =
      ["connlimit_db19c81ac33b", "connlimit_1d2326be39a2", "connlimit_ca5afd802bf8", "connlimit_2328969bff66"] ∧
    (chains.flatMap fun c => connlimits c.named).Nodup := by
  have hnames : renderedLimits.toOption.map (fun chains => (chains.flatMap (NamedChain.hashed .ip), chains.flatMap fun c => connlimits c.named)) =
      some (limitDigests.map Prod.fst,
        ["connlimit_db19c81ac33b", "connlimit_1d2326be39a2", "connlimit_ca5afd802bf8", "connlimit_2328969bff66"]) := by
    decide +kernel
  cases hchains : renderedLimits with
  | error e =>
    rw [hchains] at hnames
    cases hnames
  | ok chains =>
    rw [hchains] at hnames
    obtain ⟨hhashed, hnames⟩ := Prod.mk.inj (Option.some.inj hnames)
    refine ⟨chains, rfl, hnames, (connlimit_state_not_shared (fun _ _ => ⟨?_, ?_⟩) (fun content => ?_) hchains ?_).2.1⟩
    · intro rule position stmts h u hu
      simp only [portTranslation] at h
      split at h
      all_goals
        cases h
        simp at hu
    · intro rule prepended appended h u hu
      cases h
      simp at hu
    · cases hlookup : limitDigests.lookup content with
      | none => decide
      | some name =>
        have hword : ∀ p ∈ limitDigests, ' ' ∉ p.2.toList := by decide +kernel
        obtain ⟨before, after, hsplit, -⟩ := List.lookup_eq_some_iff.1 hlookup
        exact hword (content, name) (hsplit ▸ List.mem_append_right _ List.mem_cons_self)
    · rw [hhashed]
      decide +kernel

end Ferm
