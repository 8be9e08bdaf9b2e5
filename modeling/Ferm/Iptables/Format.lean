import Ferm.Iptables.Model

/-!
# Formatting rules

How the iptables backend writes a value, an option and a rule, for the shell (slow) and for `iptables-restore` (fast). A value
of a shape that must not get here is an error.
-/

namespace Ferm

/-- A character that needs no quotes. -/
def isPlainChar (c : Char) : Bool := c.isAlphanum || c = '-' || c = '_'

/-- `_PLAIN_TOKEN_RE`: plain characters up to the end, or up to a line break at the end. -/
def isPlainToken (token : List Char) : Bool :=
  let body := if token.getLast? = some '\n' then token.dropLast else token
  !body.isEmpty && body.all isPlainChar

/-- `\s` in ASCII. -/
def isAsciiSpace (c : Char) : Bool :=
  c = ' ' || c = '\t' || c = '\n' || c = '\r' || c = Char.ofNat 0x0c || c = Char.ofNat 0x0b

/-- `_FAST_SPECIAL_RE`. -/
def isFastSpecial (c : Char) : Bool := isAsciiSpace c || c = '\'' || c = '\\' || c = ';' || c = '&'

/-- `_SLOW_SPECIAL_RE`. -/
def isSlowSpecial (c : Char) : Bool :=
  isAsciiSpace c || c = '"' || c = '\\' || c = ';' || c = '<' || c = '>' || c = '&' || c = '|'

/-- `_BACKTICK_RE`: a command in backticks on one line, with or without a line break after it. -/
def isBacktick (token : List Char) : Bool :=
  let body := if token.getLast? = some '\n' then token.dropLast else token
  body.head? = some '`' && body.getLast? = some '`' && decide (2 ≤ body.length) && !body.contains '\n'

/-- Every `c` replaced by the text `by`. -/
def replaceChar (c : Char) (text : List Char) (token : List Char) : List Char :=
  token.flatMap fun d => if d = c then text else [d]

/-- The token in quotes if a character of it asks for them, or if it is empty. -/
def quoteIf (special : Char → Bool) (quote : Char) (token : List Char) : List Char :=
  if token.any special || token.isEmpty then quote :: token ++ [quote] else token

/-- `shell_escape` on characters. -/
def shellEscapeChars (token : List Char) (fast : Bool) : List Char :=
  if isPlainToken token then token
  else if fast then quoteIf isFastSpecial '"' (replaceChar '"' ['\\', '"'] token)
  else if isBacktick token then token
  else quoteIf isSlowSpecial '\'' (replaceChar '\'' ['\'', '\\', '\'', '\''] token)

/-- `shell_escape`. -/
def shellEscape (token : String) (fast : Bool) : String := String.ofList (shellEscapeChars token.toList fast)

/-- `internal_error()` without a detail. -/
def unexpectedValue : FermError := internalError "unexpected value type"

/-- `_scalar`. -/
def Value.scalarText : Value → Except FermError String
  | scalar text => .ok text
  | _ => .error unexpectedValue

/-- The value without its negation, and the text of the negation. Of a negated array only the first element is left. -/
def Value.unwrapNegation : Value → Value × String
  | negated (array values) => (values.head?.getD undef, " !")
  | preNegated (array values) => (values.head?.getD undef, " !")
  | negated value => (value, " !")
  | preNegated value => (value, " !")
  | value => (value, "")

/-- `shell_format_option`. -/
def shellFormatOption (keyword : String) (value : Value) (fast : Bool) : Except FermError String :=
  let cmd := value.unwrapNegation.2
  match value.unwrapNegation.1 with
  | .undef => .ok (cmd ++ " --" ++ keyword)
  | .params values => do
    let texts ← values.mapM Value.scalarText
    return cmd ++ " --" ++ keyword ++ " " ++ String.intercalate " " (texts.map fun t => shellEscape t fast)
  | .multi values => do
    let texts ← values.mapM Value.scalarText
    return cmd ++ String.join (texts.map fun t => " --" ++ keyword ++ " " ++ shellEscape t fast)
  | .setRef _ _ => .error ⟨"internal: a named set reached the iptables backend unexpanded"⟩
  | .scalar text => .ok (cmd ++ " --" ++ keyword ++ " " ++ shellEscape text fast)
  | .array _ | .negated _ | .preNegated _ | .deferred _ _ => .error unexpectedValue

/-- The ip4 `reject-with` names and their icmp6 names. -/
def ICMP6_REJECT_MAP : List (String × String) :=
  [("icmp-net-unreachable", "icmp6-no-route"), ("icmp-host-unreachable", "icmp6-addr-unreachable"),
    ("icmp-port-unreachable", "icmp6-port-unreachable"), ("icmp-net-prohibited", "icmp6-adm-prohibited"),
    ("icmp-host-prohibited", "icmp6-adm-prohibited"), ("icmp-admin-prohibited", "icmp6-adm-prohibited")]

/-- What a scalar is called under ip6. -/
def ip6Value (name text : String) : String :=
  if name = "protocol" ∧ text = "icmp" then "icmpv6"
  else if name = "reject-with" then (ICMP6_REJECT_MAP.lookup text).getD text
  else text

/-- `format_option`. -/
def formatOption (domain : Family) (name : String) (value : Value) (fast : Bool) : Except FermError String :=
  if domain = .ip6 then
    let value' :=
      match value with
      | .scalar text => .scalar (ip6Value name text)
      | value => value
    shellFormatOption (if name = "icmp-type" then "icmpv6-type" else name) value' fast
  else shellFormatOption name value fast

/-- `format_rule`. -/
def formatRule (domain : Family) (rule : RenderedRule) (fast : Bool) : Except FermError String := do
  let texts ← rule.options.mapM fun o => formatOption domain o.name o.value fast
  return String.join texts

example : shellEscape "a \"b\"" true = "\"a \\\"b\\\"\"" := by decide

end Ferm
