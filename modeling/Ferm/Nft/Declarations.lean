import Ferm.Nft.Sets

/-!
# Collecting declarations

The declarations of named sets and table objects that a family's translated rules imply, one merged sighting after the other.
-/

namespace Ferm

/-- The longest name of a set is one shorter. -/
def NFT_NAME_MAXLEN : Nat := 256

/-- `_NFT_SET_NAME_RE`: a letter, then letters, digits and underscores. -/
def isNftSetName (name : List Char) : Bool :=
  match name with
  | c :: cs => c.isAlpha && cs.all fun d => d.isAlphanum || d = '_'
  | [] => false

/-- `_validate_set_name`. -/
def validateSetName (name : String) : Except FermError String :=
  if isNftSetName name.toList ∧ name.toList.length < NFT_NAME_MAXLEN then .ok name
  else .error ⟨"invalid set name '" ++ name ++ "' for nft backend"⟩

/-- `_SET_PORT_NUMERIC_RE`: a number, or two with a dash or a colon between them. -/
def isSetPort (element : List Char) : Bool :=
  isAsciiUint element ||
    ['-', ':'].any fun sep =>
      match partitionAt sep element with
      | some (low, high) => isAsciiUint low && isAsciiUint high
      | none => false

/-- `_validate_port` of a numeric port or range: a colon becomes a dash. -/
def validateSetPort (element : String) : Except FermError String :=
  if isSetPort element.toList then .ok (String.ofList (element.toList.map fun c => if c = ':' then '-' else c))
  else .error ⟨"named set element '" ++ element ++ "' must be a numeric port or range; service/protocol names are not supported"⟩

/-- `_validate_address`. -/
def validateAddress (scalar : String) : Except FermError String :=
  if !scalar.toList.isEmpty && scalar.toList.all fun c => isHexDigit c || ".:/-".toList.contains c then .ok scalar
  else .error ⟨"invalid address '" ++ scalar ++ "' for nft backend"⟩

/-- `_nft_ifname`: a plus sign at the end is a wildcard. -/
def nftIfname (name : String) : Except FermError String :=
  nftQuoteString (if name.toList.getLast? = some '+' then String.ofList (name.toList.dropLast ++ ['*']) else name)

/-- The text `sub in text` looks for. -/
def hasText (text sub : String) : Bool := text.toList.tails.any fun rest => sub.toList.isPrefixOf rest

/-- `text.endswith(tail)`. -/
def endsWith (text tail : String) : Bool := tail.toList.isSuffixOf text.toList

/-- The kinds of selectors a named set can be used at. -/
inductive SelectorKind where
  | port
  | address
  | ifname
  deriving DecidableEq, Repr

/-- What a selector looks at, by its text. -/
def selectorKind (selector : String) : Option SelectorKind :=
  if endsWith selector "dport" || endsWith selector "sport" then some .port
  else if hasText selector "saddr" || hasText selector "daddr" then some .address
  else if endsWith selector "iifname" || endsWith selector "oifname" then some .ifname
  else none

/-- The type of a set by what it is used at. -/
def SelectorKind.setType (domain : Family) : SelectorKind → NftSetType
  | port => .inetService
  | address => if domain = .ip then .ipv4Addr else .ipv6Addr
  | ifname => .ifname

/-- The check of one element by what the set is used at. -/
def SelectorKind.validate : SelectorKind → String → Except FermError String
  | port => validateSetPort
  | address => validateAddress
  | ifname => nftIfname

/-- `flags_interval`: a range, a network, or a wildcard among interface names. -/
def flagsInterval (type_ : NftSetType) (elements : List String) : Bool :=
  (elements.any fun element =>
      let rank := (elementClass element).rank
      rank = 1 || rank = 2 && element.toList.contains '/') ||
    (type_ = .ifname && elements.any fun element => endsWith element "*\"")

/-- `_set_type_and_elements`. -/
def setTypeAndElements (domain : Family) (selector : String) (setref : SetRef) : Except FermError SetDecl :=
  match selectorKind selector with
  | none => .error ⟨"named set selector '" ++ selector ++ "' not supported"⟩
  | some kind => do
    let elements ← setref.elements.mapM kind.validate
    return ⟨kind.setType domain, flagsInterval (kind.setType domain) elements, orderElements elements⟩

/-- The name a connlimit set carries until it has its own. -/
def CONNLIMIT_SENTINEL : String := "?"

/-- `_conflicting_set`. -/
def conflictingSet (name : String) : FermError := ⟨"set '" ++ name ++ "' has conflicting declarations for the nft backend"⟩

/-- The declaration an update implies. -/
def NftSetUpdate.decl (u : NftSetUpdate) : DynSetDecl := ⟨u.setType, u.keyExpr, u.timeout, u.limit, u.owned⟩

/-- The declarations so far, and the selector each static set was used at. -/
structure Collected where
  decls : Dict String Decl := Dict.empty
  selectors : Dict String String := Dict.empty

/-- `_merge_dynamic_decl`. -/
def mergeDynamicDecl (c : Collected) (u : NftSetUpdate) : Except FermError Collected :=
  if u.name = CONNLIMIT_SENTINEL then
    .error (internalError "connlimit set reached declaration collection with an unfinalized name")
  else
    let declare (d : DynSetDecl) : Collected := { c with decls := c.decls.set u.name (.dyn d) }
    match c.decls.get? u.name with
    | none => .ok (declare u.decl)
    | some existing =>
      if u.owned then if existing = .dyn u.decl then .ok (declare u.decl) else .error (conflictingSet u.name)
      else
        match existing with
        | .object _ => .error (conflictingSet u.name)
        | .static d => if d.type_.word = u.setType then .ok (declare u.decl) else .error (conflictingSet u.name)
        | .dyn d =>
          if d.owned ∨ d.type_ ≠ u.setType then .error (conflictingSet u.name)
          else .ok (declare { d with timeout := d.timeout <|> u.timeout })

/-- `_merge_static_decl`, of the match's set. -/
def mergeStaticDecl (c : Collected) (domain : Family) (m : NftMatch) (setref : SetRef) : Except FermError Collected := do
  let name ← validateSetName setref.name
  let selector ← match m.setSelector with
    | some selector => pure selector
    | none => throw (internalError "unexpected value type")
  let decl ← setTypeAndElements domain selector setref
  match c.decls.get? name with
  | some (.object _) => throw (conflictingSet name)
  | some (.dyn d) =>
    if d.owned ∨ d.type_ ≠ decl.type_.word then
      throw ⟨"named set '" ++ name ++ "' collides with a stateful set of the same name for the nft backend"⟩
    else pure c
  | prior =>
    match c.selectors.get? name with
    | some selector' =>
      if selector' ≠ selector then
        throw ⟨"named set '" ++ name ++ "' used with conflicting selectors '" ++ selector' ++ "' and '" ++ selector ++ "'"⟩
    | none => pure ()
    match prior with
    | some (.static d) =>
      if d.elements ≠ decl.elements then throw ⟨"named set '" ++ name ++ "' has conflicting element sets"⟩
    | _ => pure ()
    pure ⟨c.decls.set name (.static decl), c.selectors.set name selector⟩

/-- `_merge_object_decl`. -/
def mergeObjectDecl (c : Collected) (o : NftObjectRef) : Except FermError Collected :=
  match c.decls.get? o.name with
  | none => .ok { c with decls := c.decls.set o.name (.object ⟨o.kind, o.body⟩) }
  | some prior => if prior = .object ⟨o.kind, o.body⟩ then .ok c else .error (conflictingSet o.name)

/-- What one statement adds. -/
def mergeStatement (domain : Family) (c : Collected) (stmt : NftStatement) : Except FermError Collected :=
  match stmt with
  | .nftSetUpdate u => mergeDynamicDecl c u
  | .nftObjectRef o => mergeObjectDecl c o
  | .nftMatch m =>
    match m.setref with
    | some setref => mergeStaticDecl c domain m setref
    | none => .ok c
  | _ => .ok c

/-- The statements of a family, chain by chain and rule by rule. -/
def familyStatements (rules : Dict String (List NftRule)) : List NftStatement :=
  rules.entries.flatMap fun e => e.2.flatMap NftRule.statements

/-- `_collect_set_declarations`. -/
def collectSetDeclarations (domain : Family) (rules : Dict String (List NftRule)) : Except FermError (Dict String Decl) :=
  ((familyStatements rules).foldlM (mergeStatement domain) {}).map Collected.decls

end Ferm
