import Ferm.Lib.Cycles
import Ferm.Lib.Dict
import Mathlib.Algebra.BigOperators.Group.Finset.Basic
import Mathlib.Algebra.GroupWithZero.Nat
import Mathlib.Data.List.Sort
import Mathlib.Data.String.Basic

/-!
# Jump cycles

`find_jump_cycles`: a depth-first search from every chain of the jump graph reports the loops it closes, each rotated to its least
chain. Every report is a simple cycle of the graph, and every chain on a loop is in one of them.
-/

namespace Ferm

/-- `_canonical_cycle`: the rotation that starts at the least node. -/
def canonicalCycle (cycle : List String) : List String :=
  match cycle.min? with
  | some least =>
    let pivot := cycle.idxOf least
    cycle.drop pivot ++ cycle.take pivot
  | none => cycle

/-- `adjacency.get(node, ())`. -/
def successors (adjacency : Dict String (List String)) (node : String) : List String := (adjacency.get? node).getD []

/-- The search of one start: the nodes of the path, the last one first, each with what is pending of its successors, the nodes
visited so far and the cycles found. -/
structure Search where
  frames : List (String × List String)
  visited : List String
  cycles : List (List String)

namespace Search

/-- The path from the start; `on_path` is the set of its nodes. -/
def path (s : Search) : List String := (s.frames.map Prod.fst).reverse

/-- One turn of the loop: the next successor of the last node on the path. -/
def step (adjacency : Dict String (List String)) (s : Search) : Search :=
  match s.frames with
  | [] => s
  | (_, []) :: frames => { s with frames := frames }
  | (node, successor :: rest) :: frames =>
    if successor ∈ s.path then
      { s with
        frames := (node, rest) :: frames
        cycles := s.cycles.insert (canonicalCycle (s.path.drop (s.path.idxOf successor))) }
    else if successor ∈ s.visited then { s with frames := (node, rest) :: frames }
    else
      { s with
        frames := (successor, successors adjacency successor) :: (node, rest) :: frames
        visited := successor :: s.visited }

/-- The loop, as long as nodes are on the path. -/
def run (adjacency : Dict String (List String)) : Nat → Search → Option (List (List String))
  | fuel, s =>
    if s.frames = [] then some s.cycles
    else
      match fuel with
      | 0 => none
      | fuel + 1 => run adjacency fuel (s.step adjacency)

/-- The state at the start of a search. -/
def init (adjacency : Dict String (List String)) (start : String) (cycles : List (List String)) : Search :=
  ⟨[(start, successors adjacency start)], [start], cycles⟩

end Search

/-- `_find_cycles`: one search per node with successors; nothing if the fuel of a search runs out. -/
def findCycles (fuel : Nat) (adjacency : Dict String (List String)) : Option (List (List String)) :=
  adjacency.keys.foldlM (fun cycles start => (Search.init adjacency start cycles).run adjacency fuel) []

/-- The graph of the edges of a config: the targets of a chain are in sorted order. -/
def jumpGraph (edges : List (String × String)) : Dict String (List String) :=
  (edges.insertionSort fun e f => e.1 < f.1 ∨ e.1 = f.1 ∧ e.2 ≤ f.2).foldl
    (fun adjacency edge => adjacency.set edge.1 (successors adjacency edge.1 ++ [edge.2])) .empty

/-- The messages of `find_jump_cycles`, of the edges that `_collect_edges` finds. -/
def findJumpCycles (fuel : Nat) (edges : List (String × String)) : Option (List String) :=
  (findCycles fuel (jumpGraph edges)).map fun cycles =>
    (cycles.insertionSort (· ≤ ·)).map fun cycle => "jump cycle: " ++ String.intercalate " -> " (cycle ++ cycle.take 1)

example : findJumpCycles 20 [("C", "C"), ("B", "C"), ("C", "A"), ("D", "A"), ("A", "B")] =
    some ["jump cycle: A -> B -> C -> A", "jump cycle: C -> C"] := by decide +kernel

/-! ## Canonical rotations -/

theorem canonicalCycle_isRotated (cycle : List String) : cycle ~r canonicalCycle cycle := by
  unfold canonicalCycle
  split
  · have hrot : cycle.take (cycle.idxOf ‹String›) ++ cycle.drop (cycle.idxOf ‹String›) ~r
        cycle.drop (cycle.idxOf ‹String›) ++ cycle.take (cycle.idxOf ‹String›) := List.isRotated_append
    rwa [List.take_append_drop] at hrot
  · exact List.IsRotated.refl cycle

/-- A cycle that starts at its least node. -/
def IsCanonical (cycle : List String) : Prop := ∃ least, cycle.head? = some least ∧ ∀ node ∈ cycle, least ≤ node

theorem isCanonical_canonicalCycle {cycle : List String} (h : cycle ≠ []) : IsCanonical (canonicalCycle cycle) := by
  obtain ⟨least, hleast⟩ := Option.isSome_iff_exists.1 (List.isSome_min?_of_ne_nil h)
  obtain ⟨hmem, hle⟩ := List.min?_eq_some_iff.1 hleast
  refine ⟨least, ?_, fun node hnode => hle node ((canonicalCycle_isRotated cycle).mem_iff.2 hnode)⟩
  have hlt := List.idxOf_lt_length_of_mem hmem
  simp only [canonicalCycle, hleast]
  rw [List.head?_append_of_ne_nil, List.head?_drop, List.getElem?_idxOf hmem]
  exact fun hnil => absurd (List.drop_eq_nil_iff.1 hnil) (Nat.not_le.2 hlt)

/-- A cycle has one canonical rotation. -/
theorem eq_of_isCanonical {c d : List String} (hc : IsCanonical c) (hd : IsCanonical d) (hnodup : c.Nodup) (hrot : c ~r d) : c = d := by
  obtain ⟨a, ha, hale⟩ := hc
  obtain ⟨b, hb, hble⟩ := hd
  have hab : a ≤ b := hale b (hrot.mem_iff.2 (List.mem_of_mem_head? hb))
  have hba : b ≤ a := hble a (hrot.mem_iff.1 (List.mem_of_mem_head? ha))
  exact eq_of_isRotated_of_head? hnodup hrot (ha.trans (congrArg some (le_antisymm hab hba)) |>.trans hb.symm)

/-! ## The search of one start -/

section

variable (adjacency : Dict String (List String))

/-- The edges of the graph. -/
def JumpEdge (a b : String) : Prop := b ∈ successors adjacency a

/-- What a search may report: a simple cycle in its canonical rotation. -/
def IsReport (cycle : List String) : Prop := IsSimpleCycle (JumpEdge adjacency) cycle ∧ IsCanonical cycle

namespace Search

/-- An edge is settled when its end is visited and, if it leads back to the start, a cycle through the start is reported. -/
def Settled (start : String) (s : Search) (b : String) : Prop := b ∈ s.visited ∧ (b = start → ∃ c ∈ s.cycles, start ∈ c)

/-- The invariant of the search: the path is a simple path from the start, all of whose nodes are visited, and what is not pending
of a visited node's successors is settled. -/
structure Inv (start : String) (s : Search) : Prop where
  pending : ∀ f ∈ s.frames, ∀ b ∈ f.2, JumpEdge adjacency f.1 b
  chain : List.IsChain (JumpEdge adjacency) s.path
  nodup : s.path.Nodup
  bottom : s.frames ≠ [] → s.path.head? = some start
  visited : ∀ a ∈ s.path, a ∈ s.visited
  settled : ∀ a ∈ s.visited, ∀ b, JumpEdge adjacency a b → s.Settled start b ∨ ∃ f ∈ s.frames, f.1 = a ∧ b ∈ f.2
  sound : ∀ c ∈ s.cycles, IsReport adjacency c
  started : start ∈ s.visited

end Search

variable {adjacency}

theorem path_cons (node : String) (pending : List String) (frames : List (String × List String)) (visited : List String)
    (cycles : List (List String)) :
    Search.path ⟨(node, pending) :: frames, visited, cycles⟩ = Search.path ⟨frames, visited, cycles⟩ ++ [node] := by
  simp [Search.path]

/-- A successor on the path closes a cycle. -/
theorem isSimpleCycle_of_back {path : List String} {node successor : String} (hchain : List.IsChain (JumpEdge adjacency) path)
    (hnodup : path.Nodup) (hlast : path.getLast? = some node) (hedge : JumpEdge adjacency node successor) (hmem : successor ∈ path) :
    IsSimpleCycle (JumpEdge adjacency) (path.drop (path.idxOf successor)) ∧ successor ∈ path.drop (path.idxOf successor) := by
  have hlt := List.idxOf_lt_length_of_mem hmem
  have hdrop : path.drop (path.idxOf successor) = successor :: path.drop (path.idxOf successor + 1) := by
    rw [List.drop_eq_getElem_cons hlt, List.getElem_idxOf]
  have hsuffix := List.drop_suffix (path.idxOf successor) path
  have hlast' : (path.drop (path.idxOf successor)).getLast? = some node := by
    rw [List.getLast?_drop, if_neg (Nat.not_le.2 hlt), hlast]
  rw [hdrop] at hsuffix hlast' ⊢
  exact ⟨isSimpleCycle_of_path (hnodup.sublist hsuffix.sublist) (hchain.suffix hsuffix) hlast' hedge, List.mem_cons_self⟩

namespace Search

variable {start node successor : String} {rest : List String} {frames : List (String × List String)} {visited : List String}
  {cycles : List (List String)}

theorem Settled.mono {s t : Search} {b : String} (h : s.Settled start b) (hvisited : ∀ a ∈ s.visited, a ∈ t.visited)
    (hcycles : ∀ c ∈ s.cycles, c ∈ t.cycles) : t.Settled start b := by
  refine ⟨hvisited b h.1, fun hb => ?_⟩
  obtain ⟨c, hc, hmem⟩ := h.2 hb
  exact ⟨c, hcycles c hc, hmem⟩

/-- A node whose successors are all settled leaves the path. -/
theorem Inv.pop (h : Inv adjacency start ⟨(node, []) :: frames, visited, cycles⟩) :
    Inv adjacency start ⟨frames, visited, cycles⟩ := by
  have hpath := path_cons node [] frames visited cycles
  have hshorter : Search.path ⟨frames, visited, cycles⟩ <+: Search.path ⟨(node, []) :: frames, visited, cycles⟩ :=
    ⟨[node], hpath.symm⟩
  refine ⟨fun f hf => h.pending f (List.mem_cons_of_mem _ hf), h.chain.prefix hshorter, h.nodup.sublist hshorter.sublist,
    fun hne => ?_, fun a ha => h.visited a (hshorter.subset ha), fun a ha b hb => ?_, h.sound, h.started⟩
  · have hbottom := h.bottom (List.cons_ne_nil _ _)
    rw [hpath, List.head?_append_of_ne_nil] at hbottom
    · exact hbottom
    · simpa [Search.path] using hne
  · rcases h.settled a ha b hb with hsettled | ⟨f, hf, rfl, hb'⟩
    · exact .inl hsettled
    · rcases List.mem_cons.1 hf with rfl | hf
      · cases hb'
      · exact .inr ⟨f, hf, rfl, hb'⟩

/-- A successor that is settled is not pending any longer. -/
theorem Inv.consume (h : Inv adjacency start ⟨(node, successor :: rest) :: frames, visited, cycles⟩)
    {cycles' : List (List String)} (hcycles : ∀ c ∈ cycles, c ∈ cycles') (hsound : ∀ c ∈ cycles', IsReport adjacency c)
    (hsettled : Settled start ⟨(node, rest) :: frames, visited, cycles'⟩ successor) :
    Inv adjacency start ⟨(node, rest) :: frames, visited, cycles'⟩ := by
  have hpath : Search.path ⟨(node, rest) :: frames, visited, cycles'⟩ =
      Search.path ⟨(node, successor :: rest) :: frames, visited, cycles⟩ := by
    rw [path_cons, path_cons]
    rfl
  refine ⟨fun f hf b hb => ?_, hpath ▸ h.chain, hpath ▸ h.nodup, fun _ => hpath ▸ h.bottom (List.cons_ne_nil _ _),
    fun a ha => h.visited a (hpath ▸ ha), fun a ha b hb => ?_, hsound, h.started⟩
  · rcases List.mem_cons.1 hf with rfl | hf
    · exact h.pending _ List.mem_cons_self b (List.mem_cons_of_mem _ hb)
    · exact h.pending f (List.mem_cons_of_mem _ hf) b hb
  · rcases h.settled a ha b hb with hold | ⟨f, hf, rfl, hb'⟩
    · exact .inl (hold.mono (fun _ => id) hcycles)
    · rcases List.mem_cons.1 hf with rfl | hf
      · rcases List.mem_cons.1 hb' with rfl | hb'
        · exact .inl hsettled
        · exact .inr ⟨_, List.mem_cons_self, rfl, hb'⟩
      · exact .inr ⟨f, List.mem_cons_of_mem _ hf, rfl, hb'⟩

/-- A successor that is new becomes the last node of the path, with all its successors pending. -/
theorem Inv.push (h : Inv adjacency start ⟨(node, successor :: rest) :: frames, visited, cycles⟩)
    (hnew : successor ∉ Search.path ⟨(node, successor :: rest) :: frames, visited, cycles⟩) :
    Inv adjacency start ⟨(successor, successors adjacency successor) :: (node, rest) :: frames, successor :: visited, cycles⟩ := by
  have hpath : Search.path ⟨(successor, successors adjacency successor) :: (node, rest) :: frames, successor :: visited, cycles⟩ =
      Search.path ⟨(node, successor :: rest) :: frames, visited, cycles⟩ ++ [successor] := by
    rw [path_cons, path_cons, path_cons]
    rfl
  have hlast : (Search.path ⟨(node, successor :: rest) :: frames, visited, cycles⟩).getLast? = some node := by
    rw [path_cons, List.getLast?_concat]
  have hedge : JumpEdge adjacency node successor := h.pending _ List.mem_cons_self successor List.mem_cons_self
  have hbottom := h.bottom (List.cons_ne_nil _ _)
  refine ⟨fun f hf b hb => ?_, ?_, ?_, fun _ => ?_, fun a ha => ?_, fun a ha b hb => ?_, h.sound,
    List.mem_cons_of_mem _ h.started⟩
  · rcases List.mem_cons.1 hf with rfl | hf
    · exact hb
    · rcases List.mem_cons.1 hf with rfl | hf
      · exact h.pending _ List.mem_cons_self b (List.mem_cons_of_mem _ hb)
      · exact h.pending f (List.mem_cons_of_mem _ hf) b hb
  · rw [hpath, List.isChain_append]
    refine ⟨h.chain, List.isChain_singleton _, fun x hx y hy => ?_⟩
    rw [hlast, Option.mem_some_iff] at hx
    rw [List.head?_cons, Option.mem_some_iff] at hy
    exact hx ▸ hy ▸ hedge
  · rw [hpath]
    exact List.nodup_append.2 ⟨h.nodup, List.nodup_singleton _, fun a ha b hb => by
      rw [List.mem_singleton.1 hb]
      rintro rfl
      exact hnew ha⟩
  · rw [hpath, List.head?_append, hbottom]
    rfl
  · rw [hpath, List.mem_append, List.mem_singleton] at ha
    rcases ha with ha | rfl
    · exact List.mem_cons_of_mem _ (h.visited a ha)
    · exact List.mem_cons_self
  · rcases List.mem_cons.1 ha with rfl | ha
    · exact .inr ⟨_, List.mem_cons_self, rfl, hb⟩
    · rcases h.settled a ha b hb with hold | ⟨f, hf, rfl, hb'⟩
      · exact .inl (hold.mono (fun _ => List.mem_cons_of_mem _) fun _ => id)
      · rcases List.mem_cons.1 hf with rfl | hf
        · rcases List.mem_cons.1 hb' with rfl | hb'
          · -- the start is on the path, so the new node is another one
            refine .inl ⟨List.mem_cons_self, fun hstart => absurd ?_ hnew⟩
            exact hstart ▸ List.mem_of_mem_head? hbottom
          · exact .inr ⟨_, List.mem_cons_of_mem _ List.mem_cons_self, rfl, hb'⟩
        · exact .inr ⟨f, List.mem_cons_of_mem _ (List.mem_cons_of_mem _ hf), rfl, hb'⟩

theorem Inv.step {s : Search} (h : Inv adjacency start s) : Inv adjacency start (s.step adjacency) := by
  obtain ⟨frames, visited, cycles⟩ := s
  match frames with
  | [] => exact h
  | (node, []) :: frames => exact h.pop
  | (node, successor :: rest) :: frames =>
    simp only [Search.step]
    split
    · rename_i hback
      have hlast : (Search.path ⟨(node, successor :: rest) :: frames, visited, cycles⟩).getLast? = some node := by
        rw [path_cons, List.getLast?_concat]
      have hedge : JumpEdge adjacency node successor := h.pending _ List.mem_cons_self successor List.mem_cons_self
      obtain ⟨hcycle, hmem⟩ := isSimpleCycle_of_back h.chain h.nodup hlast hedge hback
      have hrot := canonicalCycle_isRotated
        ((Search.path ⟨(node, successor :: rest) :: frames, visited, cycles⟩).drop
          ((Search.path ⟨(node, successor :: rest) :: frames, visited, cycles⟩).idxOf successor))
      refine h.consume (fun c hc => List.mem_insert_of_mem hc) (fun c hc => ?_)
        ⟨h.visited successor hback, fun hstart => ⟨_, List.mem_insert_self, hstart ▸ hrot.mem_iff.1 hmem⟩⟩
      rcases List.mem_insert_iff.1 hc with rfl | hc
      · exact ⟨hcycle.of_isRotated hrot, isCanonical_canonicalCycle hcycle.ne_nil⟩
      · exact h.sound c hc
    · rename_i hnew
      split
      · rename_i hvisited
        refine h.consume (fun _ => id) h.sound ⟨hvisited, fun hstart => absurd ?_ hnew⟩
        exact hstart ▸ List.mem_of_mem_head? (h.bottom (List.cons_ne_nil _ _))
      · exact h.push hnew

theorem inv_init (start : String) {cycles : List (List String)} (hcycles : ∀ c ∈ cycles, IsReport adjacency c) :
    Inv adjacency start (init adjacency start cycles) := by
  refine ⟨fun f hf b hb => ?_, List.isChain_singleton _, List.nodup_singleton _, fun _ => rfl, fun a ha => ha,
    fun a ha b hb => .inr ?_, hcycles, List.mem_singleton_self start⟩
  · obtain rfl := List.mem_singleton.1 hf
    exact hb
  · obtain rfl := List.mem_singleton.1 ha
    exact ⟨_, List.mem_singleton_self _, rfl, hb⟩

/-- The end of a search: everything reached from the start is visited, so a cycle through it has been closed. -/
theorem Inv.complete {s : Search} (h : Inv adjacency start s) (hend : s.frames = [])
    (hloop : Relation.TransGen (JumpEdge adjacency) start start) : ∃ c ∈ s.cycles, start ∈ c := by
  have hsettled : ∀ a ∈ s.visited, ∀ b, JumpEdge adjacency a b → s.Settled start b := fun a ha b hb =>
    (h.settled a ha b hb).resolve_right fun ⟨f, hf, _⟩ => by
      rw [hend] at hf
      cases hf
  obtain ⟨last, hreach, hback⟩ := Relation.TransGen.tail'_iff.1 hloop
  have hvisited : ∀ a, Relation.ReflTransGen (JumpEdge adjacency) start a → a ∈ s.visited := by
    intro a hreach
    induction hreach with
    | refl => exact h.started
    | tail _ hedge ih => exact (hsettled _ ih _ hedge).1
  exact (hsettled last (hvisited last hreach) start hback).2 rfl

/-- What a step does to the cycles: it adds one, or none. -/
theorem cycles_step (s : Search) : (s.step adjacency).cycles = s.cycles ∨ ∃ c, (s.step adjacency).cycles = s.cycles.insert c := by
  unfold step
  split
  · exact .inl rfl
  · exact .inl rfl
  · split
    · exact .inr ⟨_, rfl⟩
    · split <;> exact .inl rfl

/-- A search that ends keeps the reports there were, and reports a cycle through its start if there is one. -/
theorem Inv.run {fuel : Nat} {s : Search} {found : List (List String)} (h : Inv adjacency start s) (hnodup : s.cycles.Nodup)
    (hrun : s.run adjacency fuel = some found) :
    (∀ c ∈ s.cycles, c ∈ found) ∧ found.Nodup ∧ (∀ c ∈ found, IsReport adjacency c) ∧
      (Relation.TransGen (JumpEdge adjacency) start start → ∃ c ∈ found, start ∈ c) := by
  induction fuel generalizing s with
  | zero =>
    unfold Search.run at hrun
    split at hrun
    · obtain rfl := Option.some.inj hrun
      exact ⟨fun _ => id, hnodup, h.sound, h.complete ‹_›⟩
    · cases hrun
  | succ fuel ih =>
    unfold Search.run at hrun
    split at hrun
    · obtain rfl := Option.some.inj hrun
      exact ⟨fun _ => id, hnodup, h.sound, h.complete ‹_›⟩
    · rcases @cycles_step adjacency s with heq | ⟨c, heq⟩
      · obtain ⟨hkept, hrest⟩ := ih h.step (heq ▸ hnodup) hrun
        exact ⟨fun d hd => hkept d (heq ▸ hd), hrest⟩
      · obtain ⟨hkept, hrest⟩ := ih h.step (heq ▸ hnodup.insert) hrun
        exact ⟨fun d hd => hkept d (heq ▸ List.mem_insert_of_mem hd), hrest⟩

/-! ### The search ends -/

/-- The turns that are left: those for what is pending, and those for the nodes that are not yet visited. -/
def turns (adjacency : Dict String (List String)) (nodes : Finset String) (s : Search) : Nat :=
  (s.frames.map fun f => f.2.length + 1).sum +
    ∑ a ∈ nodes.filter (· ∉ s.visited), ((successors adjacency a).length + 2)

theorem turns_step {nodes : Finset String} (hnodes : ∀ a b, JumpEdge adjacency a b → b ∈ nodes) {s : Search}
    (h : Inv adjacency start s) (hne : s.frames ≠ []) :
    (s.step adjacency).turns adjacency nodes < s.turns adjacency nodes := by
  obtain ⟨frames, visited, cycles⟩ := s
  match frames with
  | [] => exact absurd rfl hne
  | (node, []) :: frames =>
    have hframe : (frames.map fun f => f.2.length + 1).sum < (((node, []) :: frames).map fun f => f.2.length + 1).sum := by
      rw [List.map_cons, List.sum_cons]
      omega
    exact Nat.add_lt_add_right hframe _
  | (node, successor :: rest) :: frames =>
    have hconsume : ∀ cycles', turns adjacency nodes ⟨(node, rest) :: frames, visited, cycles'⟩ <
        turns adjacency nodes ⟨(node, successor :: rest) :: frames, visited, cycles⟩ := by
      intro cycles'
      simp [turns]
    simp only [step]
    split
    · exact hconsume _
    · split
      · exact hconsume _
      · rename_i hnew
        have hmem : successor ∈ nodes.filter (· ∉ visited) :=
          Finset.mem_filter.2 ⟨hnodes node successor (h.pending _ List.mem_cons_self successor List.mem_cons_self), hnew⟩
        have herase : nodes.filter (· ∉ successor :: visited) = (nodes.filter (· ∉ visited)).erase successor := by
          ext a
          simp only [Finset.mem_filter, Finset.mem_erase, List.mem_cons, not_or]
          exact and_left_comm
        have hsum := Finset.add_sum_erase _ (fun a => (successors adjacency a).length + 2) hmem
        simp only [turns, herase, ← hsum, List.map_cons, List.sum_cons, List.length_cons]
        omega

/-- With as much fuel as there are turns left a search ends, and more fuel does not change what it finds. -/
theorem Inv.run_of_turns_le {nodes : Finset String} (hnodes : ∀ a b, JumpEdge adjacency a b → b ∈ nodes) {s : Search}
    (h : Inv adjacency start s) {fuel : Nat} (hfuel : s.turns adjacency nodes ≤ fuel) :
    ∃ found, ∀ more, fuel ≤ more → s.run adjacency more = some found := by
  induction fuel generalizing s with
  | zero =>
    have hnil : s.frames = [] := by
      by_contra hne
      have := turns_step hnodes h hne
      omega
    refine ⟨s.cycles, fun more _ => ?_⟩
    unfold Search.run
    rw [if_pos hnil]
  | succ fuel ih =>
    by_cases hnil : s.frames = []
    · refine ⟨s.cycles, fun more _ => ?_⟩
      unfold Search.run
      rw [if_pos hnil]
    · have hturns := turns_step hnodes h hnil
      obtain ⟨found, hfound⟩ := ih h.step (by omega)
      refine ⟨found, fun more hmore => ?_⟩
      obtain ⟨more, rfl⟩ := Nat.exists_eq_add_of_le' hmore
      unfold Search.run
      rw [if_neg hnil]
      exact hfound (more + fuel) (Nat.le_add_left _ _)

end Search

end

/-! ## All starts -/

/-- A node with successors is a key of the graph. -/
theorem mem_keys_of_jumpEdge {adjacency : Dict String (List String)} {a b : String} (h : JumpEdge adjacency a b) :
    a ∈ adjacency.keys := by
  unfold JumpEdge successors at h
  cases hget : adjacency.get? a with
  | none =>
    rw [hget] at h
    cases h
  | some targets => exact Dict.mem_of_get? hget

/-- The nodes edges lead to. -/
theorem exists_nodes (adjacency : Dict String (List String)) : ∃ nodes : Finset String, ∀ a b, JumpEdge adjacency a b → b ∈ nodes :=
  ⟨(adjacency.keys.flatMap (successors adjacency)).toFinset, fun a _ h =>
    List.mem_toFinset.2 (List.mem_flatMap.2 ⟨a, mem_keys_of_jumpEdge h, h⟩)⟩

/-- The searches of a list of starts all end, and each keeps what the ones before it have found. -/
theorem exists_foldlM_run (adjacency : Dict String (List String)) (starts : List String) {cycles : List (List String)}
    (hreports : ∀ c ∈ cycles, IsReport adjacency c) (hnodup : cycles.Nodup) :
    ∃ bound found, (∀ fuel, bound ≤ fuel →
        starts.foldlM (fun cycles start => (Search.init adjacency start cycles).run adjacency fuel) cycles = some found) ∧
      (∀ c ∈ cycles, c ∈ found) ∧ found.Nodup ∧ (∀ c ∈ found, IsReport adjacency c) ∧
      ∀ start ∈ starts, Relation.TransGen (JumpEdge adjacency) start start → ∃ c ∈ found, start ∈ c := by
  induction starts generalizing cycles with
  | nil => exact ⟨0, cycles, fun _ _ => rfl, fun _ => id, hnodup, hreports, fun _ hstart => by cases hstart⟩
  | cons start starts ih =>
    obtain ⟨nodes, hnodes⟩ := exists_nodes adjacency
    have hinit := Search.inv_init start hreports
    obtain ⟨first, hfirst⟩ := hinit.run_of_turns_le hnodes (Nat.le_refl _)
    obtain ⟨hkept, hnodup', hreports', hloop⟩ := hinit.run hnodup (hfirst _ (Nat.le_refl _))
    obtain ⟨bound, found, hfound, hkept', hnodup'', hreports'', hloops⟩ := ih hreports' hnodup'
    refine ⟨(Search.init adjacency start cycles).turns adjacency nodes + bound, found, fun fuel hfuel => ?_,
      fun c hc => hkept' c (hkept c hc), hnodup'', hreports'', fun node hnode hcycle => ?_⟩
    · rw [List.foldlM_cons, hfirst fuel (by omega)]
      exact hfound fuel (by omega)
    · rcases List.mem_cons.1 hnode with rfl | hnode
      · obtain ⟨c, hc, hmem⟩ := hloop hcycle
        exact ⟨c, hkept' c hc, hmem⟩
      · exact hloops node hnode hcycle

/-- On every graph the search for cycles ends. What it reports are simple cycles of the graph, each in its canonical rotation and
once, and every node that is reached from itself is in one of them. -/
theorem findCycles_sound_complete (adjacency : Dict String (List String)) :
    ∃ bound cycles, (∀ fuel, bound ≤ fuel → findCycles fuel adjacency = some cycles) ∧
      (∀ c ∈ cycles, IsSimpleCycle (JumpEdge adjacency) c ∧ IsCanonical c) ∧
      cycles.Nodup ∧ (∀ c ∈ cycles, ∀ d ∈ cycles, c ~r d → c = d) ∧
      ∀ node, Relation.TransGen (JumpEdge adjacency) node node → ∃ c ∈ cycles, node ∈ c := by
  obtain ⟨bound, cycles, hfound, -, hnodup, hreports, hloops⟩ :=
    @exists_foldlM_run adjacency adjacency.keys [] (fun c hc => by cases hc) List.nodup_nil
  refine ⟨bound, cycles, hfound, hreports, hnodup, fun c hc d hd hrot => ?_, fun node hcycle => ?_⟩
  · exact eq_of_isCanonical (hreports c hc).2 (hreports d hd).2 (hreports c hc).1.nodup hrot
  · obtain ⟨next, hedge, -⟩ := Relation.TransGen.head'_iff.1 hcycle
    exact hloops node (mem_keys_of_jumpEdge hedge) hcycle

/-! ## The graph of a config -/

theorem jumpEdge_foldl (edges : List (String × String)) (adjacency : Dict String (List String)) (a b : String) :
    JumpEdge (edges.foldl (fun adjacency edge => adjacency.set edge.1 (successors adjacency edge.1 ++ [edge.2])) adjacency) a b ↔
      JumpEdge adjacency a b ∨ (a, b) ∈ edges := by
  induction edges generalizing adjacency with
  | nil => simp
  | cons edge edges ih =>
    rw [List.foldl_cons, ih, List.mem_cons, ← or_assoc]
    refine or_congr_left ?_
    unfold JumpEdge
    rw [successors, Dict.get?_set]
    split
    · rename_i heq
      subst heq
      simp [Prod.ext_iff]
    · rename_i hne
      simp [successors, Prod.ext_iff, hne]

/-- The edges of the graph are those of the config, in whatever order they were collected. -/
theorem jumpEdge_jumpGraph_iff (edges : List (String × String)) (a b : String) :
    JumpEdge (jumpGraph edges) a b ↔ (a, b) ∈ edges := by
  have hempty : ¬JumpEdge .empty a b := List.not_mem_nil
  rw [jumpGraph, jumpEdge_foldl, or_iff_right hempty, List.mem_insertionSort]

end Ferm
