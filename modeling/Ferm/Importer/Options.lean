import Ferm.Importer.SaveLines

/-!
# Parsing the rules of a saved ruleset

The options of a rule as they are read one after the other, with the keywords of the modules the rule loads on its way.
-/

namespace Ferm.Importer

/-- The modules of the family `ip` that the importer knows: the keywords of matches, of protocols and of targets. -/
structure Defs where
  matchDef : String → Option Keywords
  protoDef : String → Option Keywords
  targetDef : String → Option Keywords

/-- `netfilter_canonical_protocol`. -/
def netfilterCanonicalProtocol (proto : String) : String :=
  if proto = "ipv6-icmp" ∨ proto = "icmpv6" then "icmp" else if proto = "ipv6-mh" then "mh" else proto

/-- `_ALIASES`, and the two options that are spelled out. -/
def resolveAlias (option : String) : String :=
  match option with
  | "i" => "interface"
  | "o" => "outerface"
  | "f" => "fragment"
  | "p" => "protocol"
  | "d" => "daddr"
  | "s" => "saddr"
  | "m" => "match"
  | "j" => "jump"
  | "g" => "goto"
  | "dports" => "destination-ports"
  | "sports" => "source-ports"
  | option => option

/-- A rule as far as it is read: its matches and what else it has. -/
structure Draft where
  entries : List MatchEntry := []
  data : RuleData := {}

namespace Draft

/-- `_merge_keywords`: the new keywords go before the old ones. -/
def mergeKeywords (r : Draft) (keywords : Option Keywords) : Draft :=
  match keywords with
  | some keywords => { r with data := { r.data with keywords := keywords ∪ r.data.keywords } }
  | none => r

/-- `_add_port_keywords`, for a protocol with ports. -/
def addPortKeywords (r : Draft) (proto : String) : Draft :=
  if PORT_PROTOCOLS.contains proto then
    let port (name : String) : Keyword := { name, params := .count 1, negation := true }
    r.mergeKeywords (some (List.toFinmap [⟨"sport", port "sport"⟩, ⟨"dport", port "dport"⟩]))
  else r

/-- `rule.cur`: the target's options once there is a target, the matches before. -/
def cur (r : Draft) : List MatchEntry := r.data.target.getD r.entries

/-- `rule.cur` replaced. -/
def withCur (r : Draft) (es : List MatchEntry) : Draft :=
  match r.data.target with
  | some _ => { r with data := { r.data with target := some es } }
  | none => { r with entries := es }

/-- `rule.cur.append`. -/
def push (r : Draft) (e : MatchEntry) : Draft := r.withCur (r.cur ++ [e])

end Draft

/-- `_die`. -/
def parseError (lineno : Nat) : FermError := ⟨"import-ferm: parse error in line " ++ toString lineno⟩

/-- `_fetch_token`. -/
def fetchToken (lineno : Nat) (option : String) : List String → Except FermError (String × List String)
  | token :: tokens => .ok (token, tokens)
  | [] => .error ⟨"not enough arguments for option '" ++ option ++ "' in line " ++ toString lineno⟩

/-- `_fetch_negated`. -/
def fetchNegated : List String → Bool × List String
  | "!" :: tokens => (true, tokens)
  | tokens => (false, tokens)

/-- A comma-separated list. -/
def commaList (token : String) : Value := .array ((splitText ',' token).map .scalar)

/-- One argument, as its letter says. -/
def parseCode (lineno : Nat) (code : Char) (token : String) : Except FermError Value :=
  if code = 's' then .ok (.scalar token) else if code = 'c' then .ok (commaList token) else .error (parseError lineno)

/-- The arguments of an option with a letter for each of them. -/
def parseCodes (lineno : Nat) : List Char → List String → Except FermError (List Value × List String)
  | [], tokens => .ok ([], tokens)
  | _ :: _, [] => .error (parseError lineno)
  | code :: codes, token :: tokens => do
    let part ← parseCode lineno code token
    let (parts, tokens) ← parseCodes lineno codes tokens
    return (part :: parts, tokens)

/-- The arguments of an option with a number of values. -/
def fetchTokens (lineno : Nat) (option : String) : Nat → List String → Except FermError (List Value × List String)
  | 0, tokens => .ok ([], tokens)
  | n + 1, tokens => do
    let (token, tokens) ← fetchToken lineno option tokens
    let (values, tokens) ← fetchTokens lineno option n tokens
    return (.scalar token :: values, tokens)

/-- The value of an option, before it is negated. -/
def parseValue (lineno : Nat) (option : String) (params : KeywordParams) (tokens : List String) :
    Except FermError (Value × List String) :=
  match params with
  | .flag => .ok (.undef, tokens)
  | .function _ => do
    let (token, tokens) ← fetchToken lineno option tokens
    return (commaList token, tokens)
  | .codes letters =>
    if letters = "m" then do
      let (token, tokens) ← fetchToken lineno option tokens
      return (.multi [.scalar token], tokens)
    else if tokens.length < letters.toList.length then throw (parseError lineno)
    else do
      let (parts, tokens) ← parseCodes lineno letters.toList tokens
      match parts with
      | [part] => return (part, tokens)
      | parts => return (.params parts, tokens)
  | .count number =>
    if number = 1 then do
      let (token, tokens) ← fetchToken lineno option tokens
      return (.scalar token, tokens)
    else do
      let (values, tokens) ← fetchTokens lineno option number tokens
      return (.multi values, tokens)

/-- `_parse_def_option`. -/
def parseDefOption (lineno : Nat) (option : String) (params : KeywordParams) (preNegation negated : Bool) (tokens : List String) :
    Except FermError (Value × List String) := do
  let (here, tokens) := fetchNegated tokens
  let (value, tokens) ← parseValue lineno option params tokens
  let value := if negated || here then if preNegation then .preNegated value else .negated value else value
  return (value, tokens)

/-- `option … cannot be negated`. -/
def refuseNegation (lineno : Nat) (option : String) (preNegated : Bool) : Except FermError Unit :=
  if preNegated then .error ⟨"option '" ++ option ++ "' in line " ++ toString lineno ++ " cannot be negated"⟩ else .ok ()

/-- The protocol of a rule, and the keywords it brings. -/
def Draft.setProtocol (defs : Defs) (r : Draft) (value : Value) : Draft :=
  let r := { r with data := { r.data with proto := value } }.push ⟨"protocol", value⟩
  match value with
  | .scalar proto => (r.mergeKeywords (defs.protoDef (netfilterCanonicalProtocol proto))).addPortKeywords proto
  | _ => r

/-- A module of a rule: named unless the protocol names it already. -/
def Draft.loadMatch (defs : Defs) (r : Draft) (param : String) : Draft :=
  let r := { r with data := { r.data with mod := insert param r.data.mod } }
  let covered :=
    match r.data.proto with
    | .scalar proto => proto = param || ((proto = "ipv6-icmp" || proto = "icmpv6") && param = "icmp6")
    | _ => false
  let r := if covered then r else r.push ⟨"mod", .scalar param⟩
  let module := if param = "icmp6" then "icmpv6" else param
  (r.mergeKeywords ((defs.matchDef module).or (defs.protoDef module))).addPortKeywords param

/-- An option of a module: consecutive options that take one value each time are one array. -/
def Draft.addOption (r : Draft) (option : String) (keyword : Keyword) (value : Value) : Draft :=
  let entry : MatchEntry := ⟨keyword.fermName.getD keyword.name, value⟩
  match value, r.cur.getLast? with
  | .multi vs, some ⟨name, .multi ws⟩ =>
    if name = option then r.withCur (r.cur.dropLast ++ [⟨name, .multi (ws ++ vs)⟩]) else r.push entry
  | _, _ => r.push entry

/-- The target of a rule: its options are read next, with its own keywords. -/
def Draft.jumpTo (defs : Defs) (r : Draft) (target : String) : Draft :=
  let data :=
    { r.data with jump := some target, target := some [], matchKeywords := some r.data.keywords, keywords := ∅ }
  Draft.mergeKeywords { r with data } (defs.targetDef target)

/-- `parse_option`. -/
def parseOption (defs : Defs) (lineno : Nat) (r : Draft) (option : String) (preNegated : Bool) (tokens : List String) :
    Except FermError (Draft × List String) := do
  let option := resolveAlias option
  if option = "protocol" then
    let (value, tokens) ← parseDefOption lineno option (.count 1) false preNegated tokens
    return (r.setProtocol defs value, tokens)
  else if option = "match" then
    match tokens with
    | [] => throw (parseError lineno)
    | param :: tokens =>
      refuseNegation lineno option preNegated
      return (r.loadMatch defs param, tokens)
  else
    match r.data.keywords.lookup option with
    | some keyword =>
      let (value, tokens) ← parseDefOption lineno option keyword.params keyword.preNegation preNegated tokens
      return (r.addOption option keyword value, tokens)
    | none =>
      if option = "jump" then
        match tokens with
        | [] => throw (parseError lineno)
        | target :: tokens =>
          refuseNegation lineno option preNegated
          return (r.jumpTo defs target, tokens)
      else if option = "goto" then
        match tokens with
        | [] => throw (parseError lineno)
        | target :: tokens =>
          refuseNegation lineno option preNegated
          return ({ r with data := { r.data with goto := some target } }, tokens)
      else throw ⟨"option '" ++ option ++ "' in line " ++ toString lineno ++ " not understood"⟩

/-- The options of a rule, with a bound on their number; a token that is none is passed over. -/
def parseOptions (defs : Defs) (lineno : Nat) : Nat → Draft → List String → Except FermError Draft
  | 0, r, _ => .ok r
  | _, r, [] => .ok r
  | n + 1, r, token :: tokens =>
    match matchOption token with
    | some option => do
      let (r, tokens) ← parseOption defs lineno r option false tokens
      parseOptions defs lineno n r tokens
    | none =>
      if token = "!" then
        match tokens with
        | [] => throw (parseError lineno)
        | token :: tokens =>
          match matchOption token with
          | none => throw ⟨"option expected in line " ++ toString lineno⟩
          | some option => do
            let (r, tokens) ← parseOption defs lineno r option true tokens
            parseOptions defs lineno n r tokens
      else parseOptions defs lineno n r tokens

/-- The rule that the rest of an `-A` line says: every option takes a token. -/
def parseRule (defs : Defs) (lineno : Nat) (rest : String) : Except FermError Draft :=
  let tokens := tokenize rest
  parseOptions defs lineno tokens.length (Draft.mergeKeywords {} (defs.matchDef "")) tokens

end Ferm.Importer
