import Ferm.Domains
import Ferm.Nftset

/-!
# nft statements, rules and chains

The statements a translated rule is made of, with the text each of them is written as. A match that a collapse has folded keeps
the operands in `elements` and is written as an anonymous set; `NftMatch.keyed` rules out the matches that are never built, such
as a folded match without a selector, on which the source fails loudly.
-/

namespace Ferm

/-- A reference to a named set, with the elements the configuration gives it. -/
structure SetRef where
  name : String
  elements : List String
  deriving DecidableEq, Repr

/-- The selectors whose matches can be folded: addresses, interfaces, ports and the transport protocol. -/
def setSelectors : List String :=
  ["ip saddr", "ip daddr", "ip6 saddr", "ip6 daddr", "arp saddr", "arp daddr", "eb saddr", "eb daddr", "iifname", "oifname",
    "meta l4proto"] ++ PORT_PROTOCOLS.flatMap fun protocol => [protocol ++ " sport", protocol ++ " dport"]

/-- What the selector, the operand and the folded operands of a match say about its text. -/
def matchKeyed (expr : String) : Option String → Option String → Option (List String) → Prop
  | none, none, none => True
  | some key, some e, none => key ∈ setSelectors ∧ expr = key ++ " " ++ e
  | some key, none, some _ => key ∈ setSelectors ∧ startsWith expr (key ++ " ")
  | _, _, _ => False

/-- A match expression. One that can be folded into a set has its selector in `setKey` and its operand in `element`, and its
text is made of the two; one that is folded has the operands in `elements` and keeps the text of its first match. -/
structure NftMatch where
  expr : String
  setKey : Option String := none
  element : Option String := none
  elements : Option (List String) := none
  setref : Option SetRef := none
  setSelector : Option String := none
  keyed : matchKeyed expr setKey element elements := by trivial
  deriving DecidableEq

theorem saddr_mem_setSelectors : "ip saddr" ∈ setSelectors := by decide

theorem dport_mem_setSelectors : "tcp dport" ∈ setSelectors := by decide

namespace NftMatch

/-- A match with one operand that can be folded. -/
def single (key e : String) (h : key ∈ setSelectors) : NftMatch :=
  { expr := key ++ " " ++ e, setKey := some key, element := some e, elements := none, keyed := ⟨h, rfl⟩ }

/-- A match is keyless, has one operand, or is folded. -/
theorem keyed_cases (m : NftMatch) :
    (m.setKey = none ∧ m.element = none ∧ m.elements = none) ∨
      (∃ key e, m.setKey = some key ∧ m.element = some e ∧ m.elements = none ∧ key ∈ setSelectors ∧
        m.expr = key ++ " " ++ e) ∨
      ∃ key es, m.setKey = some key ∧ m.element = none ∧ m.elements = some es ∧ key ∈ setSelectors ∧
        startsWith m.expr (key ++ " ") := by
  obtain ⟨expr, setKey, element, elements, setref, setSelector, hk⟩ := m
  rcases setKey with _ | key <;> rcases element with _ | e <;> rcases elements with _ | es <;>
    simp only [matchKeyed] at hk
  · exact .inl ⟨rfl, rfl, rfl⟩
  · exact .inr (.inr ⟨key, es, rfl, rfl, rfl, hk.1, hk.2⟩)
  · exact .inr (.inl ⟨key, e, rfl, rfl, rfl, hk.1, hk.2⟩)

/-- The text of a match with a selector begins with the selector. -/
theorem selector_expr {m : NftMatch} {key : String} (h : m.setKey = some key) :
    key ∈ setSelectors ∧ startsWith m.expr (key ++ " ") := by
  rcases m.keyed_cases with ⟨hk, -⟩ | ⟨k, e, hk, -, -, hs, he⟩ | ⟨k, es, hk, -, -, hs, he⟩
  · rw [hk] at h
    cases h
  · rw [hk] at h
    cases h
    refine ⟨hs, ?_⟩
    rw [he, startsWith, List.isPrefixOf_iff_prefix, String.toList_append (s := key ++ " ")]
    exact List.prefix_append ..
  · rw [hk] at h
    cases h
    exact ⟨hs, he⟩

end NftMatch

/-- An update of a dynamic set, with the facts its declaration is made from. -/
structure NftSetUpdate where
  name : String
  keyExpr : String
  setType : String
  timeout : Option String := none
  limit : Option String := none
  verb : String := "update"
  owned : Bool := true
  deriving DecidableEq, Repr

/-- A statement that sets a table object and implies its declaration. -/
structure NftObjectRef where
  kind : String
  name : String
  body : String
  ruleExpr : String
  deriving DecidableEq, Repr

/-- One nft statement, by the class of the source it is an instance of. -/
inductive NftStatement where
  | nftMatch (m : NftMatch)
  | nftVerdict (expr : String)
  | nftVmap (setKey : String) (pairs : List (String × String))
  | nftReset (expr : String)
  | nftSetUpdate (u : NftSetUpdate)
  | nftObjectRef (o : NftObjectRef)
  | nftQuota (expr : String)
  deriving DecidableEq

/-- A rule: its statements in order and an optional comment. -/
structure NftRule where
  statements : List NftStatement
  comment : Option String := none
  deriving DecidableEq

/-! ## Texts -/

/-- The text of a match: an anonymous set of the distinct operands once it is folded. -/
def NftMatch.toText (m : NftMatch) : String :=
  match m.elements with
  | some elements => m.setKey.getD "" ++ " " ++ setBody (orderElements elements.eraseDups)
  | none => m.expr

/-- The text of a set update, in the order the kernel prints it in. -/
def NftSetUpdate.toText (u : NftSetUpdate) : String :=
  let timeout := match u.timeout with
    | some t => ["timeout " ++ t]
    | none => []
  let limit := match u.limit with
    | some l => ["limit " ++ l]
    | none => []
  u.verb ++ " @" ++ u.name ++ " \x7b " ++ String.intercalate " " ([u.keyExpr] ++ timeout ++ limit) ++ " \x7d"

/-- The text of a verdict map, in the canonical order of its keys. -/
def vmapText (setKey : String) (pairs : List (String × String)) : String :=
  setKey ++ " vmap \x7b " ++ String.intercalate ", " ((orderVmapPairs pairs).map fun p => p.1 ++ " : " ++ p.2) ++ " \x7d"

/-- `to_text`. -/
def NftStatement.toText : NftStatement → String
  | nftMatch m => m.toText
  | nftVerdict expr => expr
  | nftVmap setKey pairs => vmapText setKey pairs
  | nftReset expr => expr
  | nftSetUpdate u => u.toText
  | nftObjectRef o => o.ruleExpr
  | nftQuota expr => expr

/-- nft's limit on the length of a comment. -/
def NFT_COMMENT_MAX : Nat := 128

/-- `_nft_quote_string`: nft has no escape, so a quote, a backslash and control characters are refused. -/
def nftQuoteString (text : String) : Except FermError String :=
  if text.toList.any fun c => c = '"' || c = '\\' || c.toNat < 32 then
    .error ⟨"value " ++ pyRepr text ++ " has a character nft cannot quote"⟩
  else .ok ("\"" ++ text ++ "\"")

/-- `render_comment`; the configuration is read as one byte a character. -/
def renderComment (comment : String) : Except FermError String := do
  if NFT_COMMENT_MAX < comment.toList.length then
    throw ⟨"comment exceeds nft limit of 128 bytes"⟩
  let quoted ← nftQuoteString comment
  pure ("comment " ++ quoted)

/-- The body of a rule in a script: its statements and its comment. -/
def NftRule.toText (r : NftRule) : Except FermError String := do
  let comment ← match r.comment with
    | some c => (renderComment c).map fun text => [text]
    | none => pure []
  pure (String.intercalate " " (r.statements.map NftStatement.toText ++ comment))

/-! ## Chains -/

/-- The type of a base chain. -/
inductive ChainType where
  | filter
  | nat
  | route
  deriving DecidableEq, Repr

/-- The hook of a base chain. -/
inductive Hook where
  | prerouting
  | input
  | forward
  | output
  | postrouting
  deriving DecidableEq, Repr

/-- nft's word for a chain type. -/
def ChainType.word : ChainType → String
  | filter => "filter"
  | nat => "nat"
  | route => "route"

/-- nft's word for a hook. -/
def Hook.word : Hook → String
  | prerouting => "prerouting"
  | input => "input"
  | forward => "forward"
  | output => "output"
  | postrouting => "postrouting"

/-- A base chain on a hook. -/
structure NftBaseChain where
  name : String
  type : ChainType
  hook : Hook
  priority : Int
  policy : Option String := none
  deriving DecidableEq, Repr

/-- A chain of the rendered table: a base chain or a user chain, which has only a name. -/
inductive NftChain where
  | base (c : NftBaseChain)
  | regular (name : String)
  deriving DecidableEq, Repr

/-- The name of a chain. -/
def NftChain.name : NftChain → String
  | base c => c.name
  | regular name => name

end Ferm
