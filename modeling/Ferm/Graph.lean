import Ferm.Iptables.Model
import Ferm.Lib.Digits
import Ferm.Lib.PrefixCode
import Mathlib.Data.Finset.Sort
import Mathlib.Data.Prod.Lex
import Mathlib.Data.String.Basic

/-!
# The chain graph

The graph of chains is drawn in clusters, one for each table of a domain. A cluster has an id that both renderers use; a node has its
quoted name, which d2 reads within the block of its cluster and DOT within the whole graph.
-/

namespace Ferm.Graph

/-! ## Names and ids -/

/-- A character with a place in `_ID_SAFE`. -/
def isIdSafe (ch : Char) : Bool := ch.isAlphanum

/-- `f"{n:02x}"`. -/
def hex02 (n : Nat) : List Char := List.replicate (2 - (Nat.toDigits 16 n).length) '0' ++ Nat.toDigits 16 n

/-- One character of an id. -/
def sanChar (ch : Char) : List Char := if isIdSafe ch then [ch] else '_' :: hex02 ch.toNat

/-- `_san`. -/
def san (part : String) : String := String.ofList (part.toList.flatMap sanChar)

/-- `_cluster_id`. -/
def clusterId (domain table : String) : String := san domain ++ "__" ++ san table

/-- A character of `_CONTROL_CHARS_RE`. -/
def isControl (ch : Char) : Bool := ch.toNat < 32 || (127 ≤ ch.toNat && ch.toNat < 160)

/-- `text.replace(old, new)` where `old` is one character. -/
def replaceChar (old : Char) (new : List Char) (text : List Char) : List Char := text.flatMap fun ch => if ch = old then new else [ch]

/-- `escape_control_chars`. -/
def escapeControlChars (name : List Char) : List Char := name.flatMap fun ch => if isControl ch then '\\' :: 'x' :: hex02 ch.toNat else [ch]

/-- `_escape_ident`. -/
def escapeIdent (name : String) : String :=
  String.ofList (escapeControlChars (replaceChar '"' ['\\', '"'] (replaceChar '\\' ['\\', '\\'] name.toList)))

/-- `_quote_ident`. -/
def quoteIdent (name : String) : String := "\"" ++ escapeIdent name ++ "\""

/-! ## The graph -/

/-- The label of an edge; that of a verdict is empty. -/
inductive EdgeKind where
  | jump
  | goto
  | subchain
  | policy
  | verdict
  deriving DecidableEq, Repr

/-- The text of a label. -/
def EdgeKind.label : EdgeKind → String
  | jump => "jump"
  | goto => "goto"
  | subchain => "subchain"
  | policy => "policy"
  | verdict => ""

/-- The role of a node. -/
inductive NodeKind where
  | builtin
  | user
  | undefined
  | verdict
  deriving DecidableEq, Repr

/-- An edge from a chain to a chain or a verdict. -/
structure Edge where
  src : String
  dst : String
  kind : EdgeKind
  deriving DecidableEq, Repr

/-- The tuple an edge is sorted by. -/
def Edge.key (e : Edge) : Lex (String × Lex (String × String)) := toLex (e.src, toLex (e.dst, e.kind.label))

/-- What is gathered for one table of a domain. -/
structure ClusterAcc where
  declared : Finset String := ∅
  edges : List Edge := []
  names : Finset String := ∅

/-- One block of the graph. -/
structure Cluster where
  domain : String
  table : String
  nodes : List (String × NodeKind)
  edges : List Edge

/-- `dot_id`. -/
def Cluster.dotId (c : Cluster) : String := clusterId c.domain c.table

/-- `label`. -/
def Cluster.label (c : Cluster) : String := escapeIdent c.domain ++ "/" ++ escapeIdent c.table

/-- What a walk gathers, by domain and table. -/
abbrev Builder := Dict (String × String) ClusterAcc

/-- `acc_for`, and a change of what it gives. -/
def Builder.update (acc : Builder) (key : String × String) (f : ClusterAcc → ClusterAcc) : Builder :=
  acc.set key (f ((acc.get? key).getD {}))

/-- `declare`: chains of each table of each domain. -/
def Builder.declare (acc : Builder) (domains tables names : List String) : Builder :=
  domains.foldl (fun acc domain => tables.foldl (fun acc table => acc.update (domain, table) fun ca =>
    { ca with declared := ca.declared ∪ names.toFinset, names := ca.names ∪ names.toFinset }) acc) acc

section Freeze

variable (targetDefs : String → List String)

/-- `_fold_family`. -/
def foldFamily (domain : String) : String := if domain = "ip6" then "ip" else domain

/-- `_classify`, where `targetDefs` has the target modules of a family. -/
def classify (name : String) (declared : Finset String) (family : String) : NodeKind :=
  if isNetfilterBuiltinChain "" name then .builtin
  else if name ∈ declared then .user
  else if name ∈ CORE_TARGETS ++ targetDefs family then .verdict
  else .undefined

/-- The cluster of one entry. -/
def frozenCluster (entry : (String × String) × ClusterAcc) : Cluster where
  domain := entry.1.1
  table := entry.1.2
  nodes := (entry.2.names.sort (· ≤ ·)).map fun name => (name, classify targetDefs name entry.2.declared (foldFamily entry.1.1))
  edges := entry.2.edges.dedup.insertionSort fun a b => a.key ≤ b.key

/-- `freeze`. -/
def freeze (acc : Builder) : List Cluster :=
  (acc.entries.map (frozenCluster targetDefs)).insertionSort fun a b =>
    (toLex (a.domain, a.table) : Lex (String × String)) ≤ toLex (b.domain, b.table)

end Freeze

/-! ## The renderers -/

/-- `_DOT_NODE_ATTR`. -/
def dotNodeAttr : NodeKind → String
  | .builtin => " [shape=box]"
  | .undefined => " [style=dashed]"
  | .verdict => " [shape=plaintext]"
  | .user => ""

/-- The lines of a cluster in DOT. -/
def dotLines (c : Cluster) : List String :=
  ["  subgraph cluster_" ++ c.dotId ++ " \x7b", "    label=\"" ++ c.label ++ "\";"] ++
    (c.nodes.map fun node => "    " ++ quoteIdent node.1 ++ dotNodeAttr node.2 ++ ";") ++
    (c.edges.map fun e => "    " ++ quoteIdent e.src ++ " -> " ++ quoteIdent e.dst ++
      (if e.kind.label = "" then "" else " [label=\"" ++ e.kind.label ++ "\"]") ++ ";") ++ ["  \x7d"]

/-- `render_dot`. -/
def renderDot (graph : List Cluster) : String :=
  String.intercalate "\n" (["digraph ferm \x7b"] ++ graph.flatMap dotLines ++ ["\x7d"]) ++ "\n"

/-- `_D2_NODE_STYLE`. -/
def d2NodeStyle : NodeKind → Option String
  | .builtin => some "shape: hexagon"
  | .undefined => some "style.stroke-dash: 3"
  | .verdict => some "shape: oval"
  | .user => none

/-- The lines of a cluster in d2. -/
def d2Lines (c : Cluster) : List String :=
  [c.dotId ++ ": \"" ++ c.label ++ "\" \x7b"] ++
    (c.nodes.map fun node =>
      match d2NodeStyle node.2 with
      | some style => "  " ++ quoteIdent node.1 ++ ": \x7b " ++ style ++ " \x7d"
      | none => "  " ++ quoteIdent node.1) ++
    (c.edges.map fun e => "  " ++ quoteIdent e.src ++ " -> " ++ quoteIdent e.dst ++
      (if e.kind.label = "" then "" else ": " ++ e.kind.label)) ++ ["\x7d"]

/-- `render_d2`. -/
def renderD2 (graph : List Cluster) : String := String.intercalate "\n" (graph.flatMap d2Lines) ++ "\n"

/-! ## Identities of the drawing -/

/-- A node: a chain or verdict of a cluster. -/
structure Node where
  domain : String
  table : String
  name : String
  deriving DecidableEq, Repr

/-- The nodes of a graph, cluster by cluster. -/
def nodes (graph : List Cluster) : List Node := graph.flatMap fun c => c.nodes.map fun node => ⟨c.domain, c.table, node.1⟩

/-- What DOT knows a node by: its text, wherever in the graph it stands. -/
def Node.dotKey (n : Node) : String := quoteIdent n.name

/-- What d2 knows a node by: its text within the block of its cluster. -/
def Node.d2Key (n : Node) : String × String := (clusterId n.domain n.table, quoteIdent n.name)

/-- No two clusters have one id, and no two nodes are one to a reader of the drawing. -/
structure Unambiguous (graph : List Cluster) : Prop where
  clusters : (graph.map Cluster.dotId).Nodup
  d2Nodes : ((nodes graph).map Node.d2Key).Nodup
  dotNodes : ((nodes graph).map Node.dotKey).Nodup

/-- No chain or verdict has its name in two clusters. -/
def NamesApart (acc : Builder) : Prop := ∀ a ∈ acc.entries, ∀ b ∈ acc.entries, a.1 ≠ b.1 → Disjoint a.2.names b.2.names

/-! ## Ids are injective -/

/-- A character of a config. -/
def IsByte (ch : Char) : Prop := ch.toNat < 256

/-- A text of a config. -/
def IsBytes (text : String) : Prop := ∀ ch ∈ text.toList, IsByte ch

theorem uintValue_hex02 (n : Nat) : uintValue 16 (hex02 n) = n := by
  have hzeros : ∀ k, (List.replicate k '0').foldl (fun n c => 16 * n + digitValue c) 0 = 0 := by
    intro k
    induction k with
    | zero => rfl
    | succ k ih =>
      rw [List.replicate_succ, List.foldl_cons]
      exact ih
  rw [hex02, uintValue, List.foldl_append, hzeros]
  exact uintValue_toDigits (by decide) (by decide) n

theorem hex02_injective : Function.Injective hex02 := fun a b h => by
  rw [← uintValue_hex02 a, h, uintValue_hex02]

theorem isHexDigit_of_mem_hex02 {n : Nat} {c : Char} (h : c ∈ hex02 n) : isHexDigit c = true := by
  rcases List.mem_append.1 h with h | h
  · rw [List.eq_of_mem_replicate h]
    rfl
  · exact isHexDigit_of_mem_toDigits (by decide) (by decide) h

/-- A byte has two digits. -/
theorem length_hex02 {n : Nat} (h : n < 256) : (hex02 n).length = 2 := by
  have hle : (Nat.toDigits 16 n).length ≤ 2 := (Nat.length_toDigits_le_iff (by decide) (by decide)).2 h
  rw [hex02, List.length_append, List.length_replicate]
  omega

theorem underscore_not_safe : isIdSafe '_' = false := by decide

theorem prefixFree_sanChar : PrefixCode.PrefixFree IsByte sanChar := by
  intro a b ha hb h
  unfold sanChar at h
  split at h <;> split at h
  · exact List.cons_prefix_cons.1 h |>.1
  · rename_i hsafe _
    rw [(List.cons_prefix_cons.1 h).1, underscore_not_safe] at hsafe
    cases hsafe
  · rename_i _ hsafe
    rw [← (List.cons_prefix_cons.1 h).1, underscore_not_safe] at hsafe
    cases hsafe
  · have hdigits := (List.cons_prefix_cons.1 h).2
    have heq := hdigits.eq_of_length (by rw [length_hex02 ha, length_hex02 hb])
    exact Char.toNat_inj.1 (hex02_injective heq)

theorem marks_sanChar : PrefixCode.Marks IsByte sanChar ['_', '_'] := by
  intro a ha
  unfold sanChar
  split
  · rename_i hsafe
    constructor
    · intro h
      rw [(List.cons_prefix_cons.1 h).1, underscore_not_safe] at hsafe
      cases hsafe
    · intro h
      exact absurd h.length_le (by simp)
  · have hlength := length_hex02 ha
    constructor
    · intro h
      have hle := h.length_le
      rw [List.length_cons, hlength] at hle
      exact absurd hle (by decide)
    · intro h
      have hdigit : '_' ∈ hex02 a.toNat := (List.cons_prefix_cons.1 h).2.subset List.mem_cons_self
      exact absurd (isHexDigit_of_mem_hex02 hdigit) (by decide)

theorem toList_san (part : String) : (san part).toList = part.toList.flatMap sanChar := String.toList_ofList

theorem ne_underscore_of_mem_hex02 {n : Nat} {c : Char} (h : c ∈ hex02 n) : c ≠ '_' := by
  rintro rfl
  exact absurd (isHexDigit_of_mem_hex02 h) (by decide)

/-- Two characters that are not both underscores. -/
def Apart (x y : Char) : Prop := ¬(x = '_' ∧ y = '_')

theorem isChain_sanChar (ch : Char) : (sanChar ch).IsChain Apart := by
  unfold sanChar
  split
  · exact .singleton _
  · refine List.Pairwise.isChain (List.pairwise_cons.2 ⟨fun y hy h => ne_underscore_of_mem_hex02 hy h.2, ?_⟩)
    exact List.pairwise_of_forall_mem_list fun x _ y hy h => ne_underscore_of_mem_hex02 hy h.2

/-- The word of a character ends with no underscore. -/
theorem apart_of_mem_getLast?_sanChar {ch x : Char} (h : x ∈ (sanChar ch).getLast?) (y : Char) : Apart x y := by
  rintro ⟨rfl, -⟩
  unfold sanChar at h
  split at h
  · rename_i hsafe
    rw [List.getLast?_singleton, Option.mem_some_iff] at h
    rw [h, underscore_not_safe] at hsafe
    cases hsafe
  · have hne : hex02 ch.toNat ≠ [] := List.append_ne_nil_of_right_ne_nil _ Nat.toDigits_ne_nil
    obtain ⟨d, ds, hdigits⟩ := List.exists_cons_of_ne_nil hne
    rw [hdigits, List.getLast?_cons_cons, ← hdigits] at h
    exact ne_underscore_of_mem_hex02 (List.mem_of_getLast? h) rfl

/-- No two underscores follow each other in a part of an id. -/
theorem separator_not_infix_san (part : String) : ¬"__".toList <:+: (san part).toList := by
  intro h
  have hchain : (san part).toList.IsChain Apart := by
    rw [toList_san]
    exact PrefixCode.isChain_flatMap (fun ch _ => isChain_sanChar ch) fun ch _ x hx => apart_of_mem_getLast?_sanChar hx
  have hpair := hchain.infix h
  exact (List.isChain_cons_cons.1 hpair).1 ⟨rfl, rfl⟩

/-- An id tells the domain and the table. -/
theorem clusterId_inj {domain table domain' table' : String} (hdomain : IsBytes domain) (htable : IsBytes table)
    (hdomain' : IsBytes domain') (htable' : IsBytes table') (h : clusterId domain table = clusterId domain' table') :
    domain = domain' ∧ table = table' := by
  have hlist : domain.toList.flatMap sanChar ++ (['_', '_'] ++ table.toList.flatMap sanChar) =
      domain'.toList.flatMap sanChar ++ (['_', '_'] ++ table'.toList.flatMap sanChar) := by
    have htoList := congrArg String.toList h
    simp only [clusterId, String.toList_append, toList_san, List.append_assoc] at htoList
    exact htoList
  obtain ⟨hl, hr⟩ := PrefixCode.flatMap_append_mark_inj prefixFree_sanChar marks_sanChar hdomain hdomain' hlist
  have hne : ∀ ch, IsByte ch → sanChar ch ≠ [] := by
    intro ch _
    unfold sanChar
    split <;> exact List.cons_ne_nil _ _
  exact ⟨String.toList_inj.1 hl, String.toList_inj.1 (PrefixCode.flatMap_inj prefixFree_sanChar hne htable htable' hr)⟩

/-! ## Quoted names are injective -/

/-- The word of a character in a quoted name. -/
def escapeChar (ch : Char) : List Char :=
  if ch = '\\' then ['\\', '\\'] else if ch = '"' then ['\\', '"'] else if isControl ch then '\\' :: 'x' :: hex02 ch.toNat else [ch]

/-- The three passes over a name are one. -/
theorem toList_escapeIdent (name : String) : (escapeIdent name).toList = name.toList.flatMap escapeChar := by
  rw [escapeIdent, String.toList_ofList, escapeControlChars, replaceChar, replaceChar, List.flatMap_assoc, List.flatMap_assoc]
  refine List.flatMap_congr fun ch _ => ?_
  unfold escapeChar
  by_cases hback : ch = '\\'
  · subst hback
    rfl
  · by_cases hquote : ch = '"'
    · subst hquote
      rfl
    · simp [hback, hquote]

theorem lt_of_isControl {ch : Char} (h : isControl ch = true) : ch.toNat < 256 := by
  rw [isControl, Bool.or_eq_true, Bool.and_eq_true, decide_eq_true_eq, decide_eq_true_eq, decide_eq_true_eq] at h
  omega

/-- A word stands for itself, or begins with a backslash and says by its second character what it stands for. -/
theorem escapeChar_cases (ch : Char) :
    (ch ≠ '\\' ∧ escapeChar ch = [ch]) ∨ ∃ second rest, escapeChar ch = '\\' :: second :: rest ∧
      ((ch = second ∧ second ≠ 'x' ∧ rest = []) ∨ (isControl ch = true ∧ second = 'x' ∧ rest = hex02 ch.toNat)) := by
  unfold escapeChar
  by_cases hback : ch = '\\'
  · rw [if_pos hback]
    exact .inr ⟨'\\', [], rfl, .inl ⟨hback, by decide, rfl⟩⟩
  · rw [if_neg hback]
    by_cases hquote : ch = '"'
    · rw [if_pos hquote]
      exact .inr ⟨'"', [], rfl, .inl ⟨hquote, by decide, rfl⟩⟩
    · rw [if_neg hquote]
      by_cases hcontrol : isControl ch = true
      · rw [if_pos hcontrol]
        exact .inr ⟨'x', hex02 ch.toNat, rfl, .inr ⟨hcontrol, rfl, rfl⟩⟩
      · rw [if_neg hcontrol]
        exact .inl ⟨hback, rfl⟩

theorem prefixFree_escapeChar : PrefixCode.PrefixFree (fun _ => True) escapeChar := by
  intro a b _ _ h
  rcases escapeChar_cases a with ⟨hna, ha⟩ | ⟨second, rest, ha, hca⟩ <;>
    rcases escapeChar_cases b with ⟨hnb, hb⟩ | ⟨second', rest', hb, hcb⟩ <;> rw [ha, hb] at h
  · exact (List.cons_prefix_cons.1 h).1
  · exact absurd (List.cons_prefix_cons.1 h).1 hna
  · exact absurd (List.cons_prefix_cons.1 h).1.symm hnb
  · obtain ⟨rfl, hrest⟩ := List.cons_prefix_cons.1 (List.cons_prefix_cons.1 h).2
    rcases hca with ⟨rfl, hx, -⟩ | ⟨hcontrol, hx, rfl⟩ <;> rcases hcb with ⟨rfl, hx', -⟩ | ⟨hcontrol', hx', rfl⟩
    · rfl
    · exact absurd hx' hx
    · exact absurd hx hx'
    · have heq := hrest.eq_of_length (by rw [length_hex02 (lt_of_isControl hcontrol), length_hex02 (lt_of_isControl hcontrol')])
      exact Char.toNat_inj.1 (hex02_injective heq)

theorem quoteIdent_injective : Function.Injective quoteIdent := by
  intro a b h
  have hlist : (escapeIdent a).toList ++ ['"'] = (escapeIdent b).toList ++ ['"'] := by
    have htoList := congrArg String.toList h
    simp only [quoteIdent, String.toList_append, List.append_assoc] at htoList
    exact List.append_cancel_left htoList
  have hne : ∀ ch, True → escapeChar ch ≠ [] := by
    intro ch _
    unfold escapeChar
    split
    · exact List.cons_ne_nil _ _
    · split
      · exact List.cons_ne_nil _ _
      · split <;> exact List.cons_ne_nil _ _
  have hflat := List.append_cancel_right hlist
  rw [toList_escapeIdent, toList_escapeIdent] at hflat
  exact String.toList_inj.1 (PrefixCode.flatMap_inj prefixFree_escapeChar hne (fun _ _ => trivial) (fun _ _ => trivial) hflat)

/-! ## The nodes of a graph -/

section Freeze

variable (targetDefs : String → List String) (acc : Builder)

theorem freeze_perm : (freeze targetDefs acc).Perm (acc.entries.map (frozenCluster targetDefs)) := List.perm_insertionSort _ _

/-- The nodes of an entry. -/
def entryNodes (entry : (String × String) × ClusterAcc) : List Node :=
  (entry.2.names.sort (· ≤ ·)).map fun name => ⟨entry.1.1, entry.1.2, name⟩

theorem nodes_perm : (nodes (freeze targetDefs acc)).Perm (acc.entries.flatMap entryNodes) := by
  have hperm := (freeze_perm targetDefs acc).flatMap_right fun c => c.nodes.map fun node => (⟨c.domain, c.table, node.1⟩ : Node)
  refine hperm.trans (List.Perm.of_eq ?_)
  rw [List.flatMap_map]
  refine List.flatMap_congr fun entry _ => ?_
  rw [frozenCluster, entryNodes, List.map_map]
  rfl

theorem mem_entryNodes {entry : (String × String) × ClusterAcc} {n : Node} :
    n ∈ entryNodes entry ↔ (n.domain, n.table) = entry.1 ∧ n.name ∈ entry.2.names := by
  rw [entryNodes, List.mem_map]
  simp only [Finset.mem_sort]
  constructor
  · rintro ⟨name, hname, rfl⟩
    exact ⟨rfl, hname⟩
  · rintro ⟨hkey, hname⟩
    exact ⟨n.name, hname, by rw [← hkey]⟩

theorem mem_nodes {n : Node} : n ∈ nodes (freeze targetDefs acc) ↔ ∃ entry ∈ acc.entries, (n.domain, n.table) = entry.1 ∧ n.name ∈ entry.2.names := by
  rw [(nodes_perm targetDefs acc).mem_iff, List.mem_flatMap]
  simp only [mem_entryNodes]

/-- Every node is listed once. -/
theorem nodup_nodes : (nodes (freeze targetDefs acc)).Nodup := by
  rw [(nodes_perm targetDefs acc).nodup_iff, List.nodup_flatMap]
  constructor
  · intro entry _
    refine (Finset.sort_nodup _ _).map fun name name' h => ?_
    exact (Node.mk.inj h).2.2
  · have hkeys : acc.entries.Pairwise fun a b => a.1 ≠ b.1 := List.pairwise_map.1 acc.nodup
    refine hkeys.imp fun hne => ?_
    intro n hn hn'
    exact hne ((mem_entryNodes.1 hn).1.symm.trans (mem_entryNodes.1 hn').1)

/-- The domains and tables of a config are texts of bytes. -/
def KeysBytes : Prop := ∀ entry ∈ acc.entries, IsBytes entry.1.1 ∧ IsBytes entry.1.2

variable {acc}

/-- No two clusters have one id. -/
theorem nodup_dotIds (hbytes : KeysBytes acc) : ((freeze targetDefs acc).map Cluster.dotId).Nodup := by
  rw [((freeze_perm targetDefs acc).map Cluster.dotId).nodup_iff, List.map_map]
  have hkeys : acc.entries.Pairwise fun a b => a.1 ≠ b.1 := List.pairwise_map.1 acc.nodup
  refine List.pairwise_map.2 (hkeys.imp_of_mem fun ha hb hne h => hne ?_)
  obtain ⟨hdomain, htable⟩ := clusterId_inj (hbytes _ ha).1 (hbytes _ ha).2 (hbytes _ hb).1 (hbytes _ hb).2 h
  exact Prod.ext hdomain htable

/-- No two nodes are one to d2. -/
theorem nodup_d2Keys (hbytes : KeysBytes acc) : ((nodes (freeze targetDefs acc)).map Node.d2Key).Nodup := by
  refine List.Nodup.map_on (fun a ha b hb h => ?_) (nodup_nodes targetDefs acc)
  obtain ⟨entry, hentry, hkey, -⟩ := (mem_nodes targetDefs acc).1 ha
  obtain ⟨entry', hentry', hkey', -⟩ := (mem_nodes targetDefs acc).1 hb
  obtain ⟨hid, hname⟩ := Prod.mk.inj h
  have hbytes' : ∀ {n : Node} {entry : (String × String) × ClusterAcc}, entry ∈ acc.entries → (n.domain, n.table) = entry.1 →
      IsBytes n.domain ∧ IsBytes n.table := by
    intro n entry hentry hkey
    have hboth := hbytes entry hentry
    rwa [← hkey] at hboth
  obtain ⟨ha1, ha2⟩ := hbytes' hentry hkey
  obtain ⟨hb1, hb2⟩ := hbytes' hentry' hkey'
  obtain ⟨hdomain, htable⟩ := clusterId_inj ha1 ha2 hb1 hb2 hid
  cases a
  cases b
  obtain rfl := hdomain
  obtain rfl := htable
  obtain rfl := quoteIdent_injective hname
  rfl

/-- No two nodes are one to DOT when no name is in two clusters. -/
theorem nodup_dotKeys_iff : ((nodes (freeze targetDefs acc)).map Node.dotKey).Nodup ↔ NamesApart acc := by
  rw [List.nodup_map_iff_inj_on (nodup_nodes targetDefs acc)]
  constructor
  · intro h a ha b hb hne
    rw [Finset.disjoint_left]
    intro name hna hnb
    have hnode := h ⟨a.1.1, a.1.2, name⟩ ((mem_nodes targetDefs acc).2 ⟨a, ha, rfl, hna⟩) ⟨b.1.1, b.1.2, name⟩
      ((mem_nodes targetDefs acc).2 ⟨b, hb, rfl, hnb⟩) rfl
    exact hne (Prod.ext (Node.mk.inj hnode).1 (Node.mk.inj hnode).2.1)
  · intro h a ha b hb heq
    obtain ⟨entry, hentry, hkey, hname⟩ := (mem_nodes targetDefs acc).1 ha
    obtain ⟨entry', hentry', hkey', hname'⟩ := (mem_nodes targetDefs acc).1 hb
    have hnames : a.name = b.name := quoteIdent_injective heq
    have hsame : entry.1 = entry'.1 := by
      by_contra hne
      exact Finset.disjoint_left.1 (h entry hentry entry' hentry' hne) hname (hnames ▸ hname')
    rw [← hkey, ← hkey', Prod.mk.injEq] at hsame
    cases a
    cases b
    obtain ⟨rfl, rfl⟩ := hsame
    obtain rfl := hnames
    rfl

end Freeze

/-- A chain of two tables. -/
def twoTables : Builder := Builder.declare Dict.empty ["ip"] ["filter", "nat"] ["OUTPUT"]

theorem keysBytes_twoTables : KeysBytes twoTables := by
  have hall : ∀ entry ∈ twoTables.entries, (entry.1.1.toList ++ entry.1.2.toList).all (fun ch => ch.toNat < 256) = true := by
    decide +kernel
  intro entry hentry
  have hchars : ∀ ch ∈ entry.1.1.toList ++ entry.1.2.toList, ch.toNat < 256 := fun ch hch => by
    simpa using List.all_eq_true.1 (hall entry hentry) ch hch
  exact ⟨fun ch hch => hchars ch (List.mem_append_left _ hch), fun ch hch => hchars ch (List.mem_append_right _ hch)⟩

end Ferm.Graph
