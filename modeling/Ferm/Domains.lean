import Ferm.Lib.Text

/-!
# Families, errors and chain priorities

The netfilter families with their nft names, the errors every stage raises, and the landmarks nft spells a chain priority by.
-/

namespace Ferm

/-- A fatal error with its message. -/
structure FermError where
  message : String
  deriving DecidableEq, Repr

/-- `internal_error`: an error that valid input does not reach. -/
def internalError (detail : String) : FermError := ⟨"internal error: " ++ detail⟩

/-- The protocols that have ports. -/
def PORT_PROTOCOLS : List String := ["tcp", "udp", "udplite", "dccp", "sctp"]

/-- A netfilter family. -/
inductive Family where
  | ip
  | ip6
  | arp
  | eb
  deriving DecidableEq, Repr

/-- The name of a family in a configuration. -/
def Family.name : Family → String
  | ip => "ip"
  | ip6 => "ip6"
  | arp => "arp"
  | eb => "eb"

/-- `Family.from_name`. -/
def Family.fromName (name : String) : Except FermError Family :=
  match [Family.ip, Family.ip6, Family.arp, Family.eb].find? fun family => family.name = name with
  | some family => .ok family
  | none => .error ⟨"Invalid domain '" ++ name ++ "'"⟩

/-- The name nft gives the family: the bridge family is called `eb` in a configuration only. -/
def Family.nftName : Family → String
  | ip => "ip"
  | ip6 => "ip6"
  | arp => "arp"
  | eb => "bridge"

/-- The one nft table a configuration is rendered into. -/
def NFT_TABLE_NAME : String := "ferm"

/-- `_NFT_PRIORITY_LANDMARKS_INET`. -/
def NFT_PRIORITY_LANDMARKS_INET : List (String × Int) :=
  [("raw", -300), ("mangle", -150), ("dstnat", -100), ("filter", 0), ("security", 50), ("srcnat", 100)]

/-- `_NFT_PRIORITY_LANDMARKS_BRIDGE`. -/
def NFT_PRIORITY_LANDMARKS_BRIDGE : List (String × Int) :=
  [("dstnat", -300), ("filter", -200), ("out", 100), ("srcnat", 300)]

/-- `_NFT_PRIORITY_LANDMARKS_ARP`. -/
def NFT_PRIORITY_LANDMARKS_ARP : List (String × Int) := [("filter", 0)]

/-- The landmarks of a family, none for an unknown one. -/
def NFT_PRIORITY_LANDMARKS (family : String) : List (String × Int) :=
  if family = "ip" ∨ family = "ip6" then NFT_PRIORITY_LANDMARKS_INET
  else if family = "arp" then NFT_PRIORITY_LANDMARKS_ARP
  else if family = "bridge" ∨ family = "eb" then NFT_PRIORITY_LANDMARKS_BRIDGE
  else []

/-- `apply_priority_offset`. -/
def applyPriorityOffset (base : Int) (sign : String) (magnitude : Int) : Int :=
  if sign = "+" then base + magnitude else base - magnitude

/-! ## Numbers are not landmarks -/

/-- The text of a number has a digit. -/
theorem exists_isDigit_toString (n : Int) : ∃ c ∈ (toString n).toList, c.isDigit = true := by
  have hnat (m : Nat) : ∃ c ∈ m.repr.toList, c.isDigit = true := by
    obtain ⟨c, hc⟩ := List.exists_mem_of_ne_nil _ (Nat.toDigits_ne_nil (n := m) (b := 10))
    exact ⟨c, by rwa [Nat.toList_repr], Nat.isDigit_of_mem_toDigits (by decide) (by decide) hc⟩
  rw [Int.toString_eq_repr, Int.repr_eq_if]
  split
  · exact hnat _
  · obtain ⟨c, hc, hd⟩ := hnat (-n).toNat
    exact ⟨c, by rw [String.toList_append]; exact List.mem_append_right _ hc, hd⟩

/-- A word without digits is not the text of a number. -/
theorem toString_ne {word : String} (h : ∀ c ∈ word.toList, c.isDigit = false) (n : Int) : toString n ≠ word := by
  intro he
  obtain ⟨c, hc, hd⟩ := exists_isDigit_toString n
  rw [he] at hc
  rw [h c hc] at hd
  cases hd

/-- No landmark is spelled like a number. -/
theorem lookup_landmarks_toString (family : String) (n : Int) :
    (NFT_PRIORITY_LANDMARKS family).lookup (toString n) = none := by
  have h : ∀ p ∈ NFT_PRIORITY_LANDMARKS family, (p.1.toList.all fun c => !c.isDigit) = true := by
    unfold NFT_PRIORITY_LANDMARKS
    split
    · decide
    · split
      · decide
      · split <;> decide
  rw [List.lookup_eq_none_iff]
  intro p hp
  have hdigit : ∀ c ∈ p.1.toList, c.isDigit = false := by
    intro c hc
    have := List.all_eq_true.1 (h p hp) c hc
    rwa [Bool.not_eq_true'] at this
  exact bne_iff_ne.2 (toString_ne hdigit n)

end Ferm
