import Mathlib.Data.Char
import Mathlib.Data.List.Dedup
import Mathlib.Data.List.Lex
import Mathlib.Data.Prod.Lex
import Redo.Library.BreadthFirst
import Redo.Library.SortedKeys
import Redo.Remote.Json

/-! # The part of the graph around a node

`redo-browse` reads both tables once, and searches from a node along the dependencies, against
them, or both ways.
-/
namespace Redo.Browse
open Library Remote

/-- A row of `Files`, as far as it is read. -/
structure FileRow where
  id : ℤ
  name : Text
  isGenerated : Option ℤ
deriving DecidableEq, Repr

/-- A row of `Deps`. -/
structure DepRow where
  target : ℤ
  source : ℤ
  mode : Text
  deleteMe : Option ℤ
deriving DecidableEq, Repr

/-- What is read. Row ids and names are unique; nothing ties `Deps` to `Files`. -/
structure Tables where
  files : List FileRow
  deps : List DepRow
  ids : (files.map FileRow.id).Nodup
  names : (files.map FileRow.name).Nodup

structure Node where
  id : ℤ
  name : Text
  isGenerated : Bool
deriving DecidableEq, Repr

structure Edge where
  other : ℤ
  mode : Char
deriving DecidableEq, Repr

structure Graph where
  nodesById : List (ℤ × Node)
  idByName : List (Text × ℤ)
  forward : List (ℤ × List Edge)
  reverse : List (ℤ × List Edge)

inductive Dir
  | forward
  | reverse
  | both
deriving DecidableEq, Repr

def Dir.asStr : Dir → Text
  | .forward => "forward".toList
  | .reverse => "reverse".toList
  | .both => "both".toList

structure Link where
  source : ℤ
  target : ℤ
  mode : Char
deriving DecidableEq, Repr

structure NodeView where
  name : Text
  generated : Bool
deriving DecidableEq, Repr

structure LinkView where
  source : Text
  target : Text
  mode : Char
deriving DecidableEq, Repr

structure Subgraph where
  root : Text
  depth : ℕ
  dir : Text
  nodes : List NodeView
  links : List LinkView
deriving DecidableEq, Repr

def FileRow.node (r : FileRow) : Node := ⟨r.id, r.name, r.isGenerated.getD 0 ≠ 0⟩

def DepRow.live (r : DepRow) : Bool := r.deleteMe.getD 0 = 0

def DepRow.modeChar (r : DepRow) : Char := r.mode.headD 'm'

/-- The edges under each id, sorted by their other ends, of which each stands once. -/
def grouped (l : List (ℤ × Edge)) : List (ℤ × List Edge) :=
  (l.map (·.1)).dedup.map fun id => (id, sortedUnique Edge.other ((l.filter (·.1 = id)).map (·.2)))

def load (t : Tables) : Graph :=
  let deps := t.deps.filter (·.live)
  { nodesById := t.files.map fun r => (r.id, r.node)
    idByName := t.files.map fun r => (r.name, r.id)
    forward := grouped (deps.map fun r => (r.target, ⟨r.source, r.modeChar⟩))
    reverse := grouped (deps.map fun r => (r.source, ⟨r.target, r.modeChar⟩)) }

/-- The state of a traversal: the queue with the distances, what was seen, and the results. -/
structure Search where
  queue : List (ℤ × ℕ)
  seen : List ℤ
  nodes : List ℤ
  links : List Link

def insertNode (nodes : List ℤ) (id : ℤ) : List ℤ := if id ∈ nodes then nodes else nodes ++ [id]

def Search.visit (link : Edge → Link) (d : ℕ) (s : Search) (e : Edge) : Search :=
  let s := { s with nodes := insertNode s.nodes e.other, links := s.links ++ [link e] }
  if e.other ∈ s.seen then s
  else { s with seen := s.seen ++ [e.other], queue := s.queue ++ [(e.other, d + 1)] }

/-- The loop of a traversal; the fuel is for the nodes that it takes from the queue. -/
def Search.run (edges : ℤ → List Edge) (link : ℤ → Edge → Link) (depth : ℕ) : ℕ → Search → Option Search
  | _, ⟨[], seen, nodes, links⟩ => some ⟨[], seen, nodes, links⟩
  | 0, ⟨_ :: _, _, _, _⟩ => none
  | fuel + 1, ⟨(id, d) :: queue, seen, nodes, links⟩ =>
    if d ≥ depth then Search.run edges link depth fuel ⟨queue, seen, nodes, links⟩
    else Search.run edges link depth fuel ((edges id).foldl (Search.visit (link id) d) ⟨queue, seen, nodes, links⟩)

def edgesOf (adjacent : List (ℤ × List Edge)) (id : ℤ) : List Edge := (adjacent.lookup id).getD []

/-- One of the two traversals. It adds to the nodes and links of the other one. -/
def traverse (adjacent : List (ℤ × List Edge)) (link : ℤ → Edge → Link) (root : ℤ) (depth : ℕ)
    (found : List ℤ × List Link) : Option (List ℤ × List Link) :=
  let points := root :: adjacent.flatMap fun p => p.2.map Edge.other
  (Search.run (edgesOf adjacent) link depth points.length ⟨[(root, 0)], [root], found.1, found.2⟩).map
    fun s => (s.nodes, s.links)

def forwardLink (id : ℤ) (e : Edge) : Link := ⟨id, e.other, e.mode⟩

def reverseLink (id : ℤ) (e : Edge) : Link := ⟨e.other, id, e.mode⟩

def Link.key (l : Link) : ℤ ×ₗ ℤ := toLex (l.source, l.target)

def Graph.nodeView (g : Graph) (id : ℤ) : Option NodeView :=
  (g.nodesById.lookup id).map fun n => ⟨n.name, n.isGenerated⟩

def Graph.linkView (g : Graph) (l : Link) : Option LinkView :=
  (g.nodesById.lookup l.source).bind fun src =>
    (g.nodesById.lookup l.target).map fun dst => ⟨src.name, dst.name, l.mode⟩

/-- `Graph::subgraph`. Without a node of the name it is an error. -/
def Graph.subgraph (g : Graph) (rootName : Text) (depth : ℕ) (dir : Dir) : Option Subgraph :=
  (g.idByName.lookup rootName).bind fun root =>
    (if dir = .reverse then some ([root], []) else traverse g.forward forwardLink root depth ([root], [])).bind
      fun found =>
        (if dir = .forward then some found else traverse g.reverse reverseLink root depth found).map fun found =>
          { root := rootName
            depth
            dir := dir.asStr
            nodes := sortBy NodeView.name (found.1.filterMap g.nodeView)
            links := (sortedUnique Link.key found.2).filterMap g.linkView }

namespace Tables

/-- The first live row of the edge. -/
def edge (t : Tables) (target source : ℤ) : Option DepRow :=
  t.deps.find? fun r => r.live && (r.target = target && r.source = source)

def sources (t : Tables) (target : ℤ) : List ℤ :=
  (t.deps.filter fun r => r.live && r.target = target).map DepRow.source

def targets (t : Tables) (source : ℤ) : List ℤ :=
  (t.deps.filter fun r => r.live && r.source = source).map DepRow.target

end Tables

/-- The node's shortest distance from the root in one of the directions asked for. -/
def Near (t : Tables) (root : ℤ) (dir : Dir) (id : ℤ) (near : ℕ → Prop) : Prop :=
  dir ≠ .reverse ∧ (∃ k, near k ∧ Distance t.sources root id k) ∨
    dir ≠ .forward ∧ ∃ k, near k ∧ Distance t.targets root id k

/-- The edge lies on a way from the root that is shorter than the depth. -/
def Within (t : Tables) (root : ℤ) (dir : Dir) (depth : ℕ) (target source : ℤ) : Prop :=
  dir ≠ .reverse ∧ (∃ k < depth, Distance t.sources root target k) ∨
    dir ≠ .forward ∧ ∃ k < depth, Distance t.targets root source k

/-- The known nodes up to the depth, and the edges between known nodes below it, each once. -/
structure Exact (t : Tables) (root : ℤ) (depth : ℕ) (dir : Dir) (g : Subgraph) : Prop where
  nodes : ∀ v, v ∈ g.nodes ↔ ∃ r ∈ t.files, v = ⟨r.name, r.node.isGenerated⟩ ∧
    Near t root dir r.id (· ≤ depth)
  node_once : (g.nodes.map NodeView.name).Nodup
  links : ∀ l, l ∈ g.links ↔ ∃ target ∈ t.files, ∃ source ∈ t.files, ∃ r,
    t.edge target.id source.id = some r ∧ l = ⟨target.name, source.name, r.modeChar⟩ ∧
      Within t root dir depth target.id source.id
  link_once : (g.links.map fun l => (l.source, l.target)).Nodup

variable {t : Tables} {edges : ℤ → List Edge} {link : ℤ → Edge → Link} {depth fuel d : ℕ}
  {s : Search} {nodes l : List ℤ} {id root : ℤ} {found : List ℤ × List Link}

theorem mem_foldl_insertNode {x : ℤ} : x ∈ l.foldl insertNode nodes ↔ x ∈ nodes ∨ x ∈ l := by
  induction l generalizing nodes with
  | nil => simp
  | cons y l ih =>
    rw [List.foldl_cons, ih, insertNode, List.mem_cons]
    split_ifs with hy
    · constructor
      · exact fun h => h.imp_right Or.inr
      · rintro (h | rfl | h)
        · exact Or.inl h
        · exact Or.inl hy
        · exact Or.inr h
    · rw [List.mem_append, List.mem_singleton, or_assoc]

theorem nodup_foldl_insertNode (h : nodes.Nodup) : (l.foldl insertNode nodes).Nodup := by
  induction l generalizing nodes with
  | nil => exact h
  | cons y l ih =>
    refine ih ?_
    rw [insertNode]
    split_ifs with hy
    · exact h
    · rw [List.nodup_append]
      refine ⟨h, List.nodup_singleton y, fun a ha b hb he => hy ?_⟩
      rw [← List.mem_singleton.mp hb, ← he]
      exact ha

/-- The inner loop over the edges of one node. -/
theorem foldl_visit (link : Edge → Link) (d : ℕ) (l : List Edge) (s : Search) :
    l.foldl (Search.visit link d) s =
      { queue := s.queue ++ (enter (l.map Edge.other) s.seen).map (·, d + 1)
        seen := s.seen ++ enter (l.map Edge.other) s.seen
        nodes := (l.map Edge.other).foldl insertNode s.nodes
        links := s.links ++ l.map link } := by
  induction l generalizing s with
  | nil => simp [enter]
  | cons e l ih =>
    rw [List.foldl_cons, ih, List.map_cons, enter, Search.visit]
    by_cases he : e.other ∈ s.seen
    · simp [he]
    · simp [he]

/-- The loop is the search, with the results of the expanded nodes beside it. -/
theorem run_eq_explore (edges : ℤ → List Edge) (link : ℤ → Edge → Link) (depth fuel : ℕ) (s : Search) :
    (s.run edges link depth fuel).map (fun s => (s.nodes, s.links)) =
      (explore (fun id => (edges id).map Edge.other) depth fuel s.queue s.seen).map fun expanded =>
        ((expanded.flatMap fun id => (edges id).map Edge.other).foldl insertNode s.nodes,
          s.links ++ expanded.flatMap fun id => (edges id).map (link id)) := by
  induction fuel generalizing s with
  | zero =>
    obtain ⟨queue, seen, nodes, links⟩ := s
    cases queue with
    | nil => simp [Search.run, explore]
    | cons p queue => rfl
  | succ fuel ih =>
    obtain ⟨queue, seen, nodes, links⟩ := s
    cases queue with
    | nil => simp [Search.run, explore]
    | cons p queue =>
      obtain ⟨id, d⟩ := p
      rw [Search.run, explore]
      split_ifs with hd
      · exact ih _
      · rw [ih, foldl_visit, Option.map_map]
        refine Option.map_congr fun expanded _ => ?_
        simp [List.flatMap_cons, List.foldl_append]

theorem edgesOf_grouped (l : List (ℤ × Edge)) (id : ℤ) :
    edgesOf (grouped l) id = sortedUnique Edge.other ((l.filter (·.1 = id)).map (·.2)) := by
  rw [edgesOf, grouped, lookup_tabulate]
  split_ifs with hid
  · rfl
  · have hnone : l.filter (·.1 = id) = [] := by
      refine List.filter_eq_nil_iff.mpr fun p hp heq => hid ?_
      exact List.mem_dedup.mpr (List.mem_map.mpr ⟨p, hp, of_decide_eq_true heq⟩)
    rw [hnone]
    rfl

theorem edgesOf_subset (adjacent : List (ℤ × List Edge)) (root id : ℤ) :
    (edgesOf adjacent id).map Edge.other ⊆ root :: adjacent.flatMap fun p => p.2.map Edge.other := by
  intro b hb
  rw [edgesOf] at hb
  cases hlookup : adjacent.lookup id with
  | none =>
    rw [hlookup] at hb
    cases hb
  | some es =>
    rw [hlookup] at hb
    obtain ⟨before, after, hadjacent, -⟩ := List.lookup_eq_some_iff.mp hlookup
    refine List.mem_cons_of_mem root (List.mem_flatMap.mpr ⟨(id, es), ?_, hb⟩)
    rw [hadjacent]
    exact List.mem_append_right before List.mem_cons_self

/-- What one traversal adds. -/
theorem traverse_spec (adjacent : List (ℤ × List Edge)) (link : ℤ → Edge → Link) (root : ℤ) (depth : ℕ)
    (found : List ℤ × List Link) :
    ∃ found', traverse adjacent link root depth found = some found' ∧
      (∀ x, x ∈ found'.1 ↔ x ∈ found.1 ∨ ∃ a,
        (∃ k < depth, Distance (fun id => (edgesOf adjacent id).map Edge.other) root a k) ∧
          x ∈ (edgesOf adjacent a).map Edge.other) ∧
      (found.1.Nodup → found'.1.Nodup) ∧
      ∀ x, x ∈ found'.2 ↔ x ∈ found.2 ∨ ∃ a,
        (∃ k < depth, Distance (fun id => (edgesOf adjacent id).map Edge.other) root a k) ∧
          ∃ e ∈ edgesOf adjacent a, link a e = x := by
  obtain ⟨expanded, hexplore, hmem⟩ := @explore_iff _ _ (fun id => (edgesOf adjacent id).map Edge.other) root
    depth _ _ List.mem_cons_self (fun a => edgesOf_subset adjacent root a) le_rfl
  have hrun := run_eq_explore (edgesOf adjacent) link depth
    (root :: adjacent.flatMap fun p => p.2.map Edge.other).length ⟨[(root, 0)], [root], found.1, found.2⟩
  rw [hexplore] at hrun
  refine ⟨_, hrun, fun x => ?_, nodup_foldl_insertNode, fun x => ?_⟩
  · rw [mem_foldl_insertNode, List.mem_flatMap]
    simp only [hmem]
  · rw [List.mem_append, List.mem_flatMap]
    simp only [hmem, List.mem_map]

/-- The edges under an id, from the live rows in their order. -/
theorem mem_grouped (deps : List DepRow) (near far : DepRow → ℤ) (id : ℤ) (e : Edge) :
    e ∈ edgesOf (grouped ((deps.filter (·.live)).map fun r => (near r, ⟨far r, r.modeChar⟩))) id ↔
      (deps.find? fun r => r.live && (near r = id && far r = e.other)).map DepRow.modeChar = some e.mode := by
  rw [edgesOf_grouped, mem_sortedUnique, firstOf, List.find?_map, List.find?_filter, List.find?_map,
    List.find?_filter]
  simp only [Function.comp_def, Bool.decide_and, Bool.decide_eq_true]
  cases hfind : deps.find? fun r => r.live && (near r = id && far r = e.other) with
  | none => simp
  | some r =>
    have hfar : far r = e.other := by
      have hr := List.find?_some hfind
      simp only [Bool.and_eq_true, decide_eq_true_eq] at hr
      exact hr.2.2
    obtain ⟨other, mode⟩ := e
    simp only [Option.map_some, Option.some.injEq, Edge.mk.injEq]
    exact ⟨fun h => h.2, fun h => ⟨hfar, h⟩⟩

theorem mem_forward {target : ℤ} {e : Edge} :
    e ∈ edgesOf (load t).forward target ↔ (t.edge target e.other).map DepRow.modeChar = some e.mode :=
  mem_grouped t.deps DepRow.target DepRow.source target e

theorem mem_reverse {source : ℤ} {e : Edge} :
    e ∈ edgesOf (load t).reverse source ↔ (t.edge e.other source).map DepRow.modeChar = some e.mode := by
  refine (mem_grouped t.deps DepRow.source DepRow.target source e).trans ?_
  have hsame : (fun r : DepRow => r.live && (decide (r.source = source) && decide (r.target = e.other))) =
      fun r => r.live && (decide (r.target = e.other) && decide (r.source = source)) := by
    ext r
    rw [Bool.and_comm (decide (r.source = source))]
  rw [hsame]
  rfl

/-- A live row makes an edge, whichever row is the first. -/
theorem edge_isSome_iff (t : Tables) (target source : ℤ) : (t.edge target source).isSome ↔ source ∈ t.sources target := by
  rw [Tables.edge, List.find?_isSome, Tables.sources, List.mem_map]
  simp only [List.mem_filter, Bool.and_eq_true, decide_eq_true_eq, and_assoc]

theorem edge_isSome_iff_targets (t : Tables) (target source : ℤ) :
    (t.edge target source).isSome ↔ target ∈ t.targets source := by
  rw [Tables.edge, List.find?_isSome, Tables.targets, List.mem_map]
  simp only [List.mem_filter, Bool.and_eq_true, decide_eq_true_eq]
  constructor
  · rintro ⟨r, hr, hlive, htarget, hsource⟩
    exact ⟨r, ⟨hr, hlive, hsource⟩, htarget⟩
  · rintro ⟨r, ⟨hr, hlive, hsource⟩, htarget⟩
    exact ⟨r, hr, hlive, htarget, hsource⟩

theorem mem_others {adjacent : List Edge} {b : ℤ} {o : Option DepRow}
    (h : ∀ e : Edge, e.other = b → (e ∈ adjacent ↔ o.map DepRow.modeChar = some e.mode)) :
    b ∈ adjacent.map Edge.other ↔ o.isSome := by
  rw [List.mem_map]
  constructor
  · rintro ⟨e, he, hb⟩
    have hsome := (h e hb).mp he
    cases o with
    | none => cases hsome
    | some r => rfl
  · intro hsome
    obtain ⟨r, rfl⟩ := Option.isSome_iff_exists.mp hsome
    exact ⟨⟨b, r.modeChar⟩, (h _ rfl).mpr rfl, rfl⟩

theorem next_forward (t : Tables) (a b : ℤ) :
    b ∈ (edgesOf (load t).forward a).map Edge.other ↔ b ∈ t.sources a := by
  rw [← edge_isSome_iff]
  exact mem_others fun e he => he ▸ mem_forward

theorem next_reverse (t : Tables) (a b : ℤ) :
    b ∈ (edgesOf (load t).reverse a).map Edge.other ↔ b ∈ t.targets a := by
  rw [← edge_isSome_iff_targets]
  exact mem_others fun e he => he ▸ mem_reverse

theorem distance_forward (t : Tables) (root a : ℤ) (k : ℕ) :
    Distance (fun id => (edgesOf (load t).forward id).map Edge.other) root a k ↔ Distance t.sources root a k :=
  distance_congr (next_forward t)

theorem distance_reverse (t : Tables) (root a : ℤ) (k : ℕ) :
    Distance (fun id => (edgesOf (load t).reverse id).map Edge.other) root a k ↔ Distance t.targets root a k :=
  distance_congr (next_reverse t)

/-- The ids and links before they are shown. -/
structure Found (t : Tables) (root : ℤ) (depth : ℕ) (dir : Dir) (found : List ℤ × List Link) : Prop where
  nodes : ∀ x, x ∈ found.1 ↔ Near t root dir x (· ≤ depth)
  nodup : found.1.Nodup
  links : ∀ l, l ∈ found.2 ↔ (t.edge l.source l.target).map DepRow.modeChar = some l.mode ∧
    Within t root dir depth l.source l.target

theorem forward_spec (t : Tables) (root : ℤ) (depth : ℕ) (found : List ℤ × List Link) :
    ∃ found', traverse (load t).forward forwardLink root depth found = some found' ∧
      (∀ x, x ∈ found'.1 ↔ x ∈ found.1 ∨ ∃ a, (∃ k < depth, Distance t.sources root a k) ∧ x ∈ t.sources a) ∧
      (found.1.Nodup → found'.1.Nodup) ∧
      ∀ l, l ∈ found'.2 ↔ l ∈ found.2 ∨ (t.edge l.source l.target).map DepRow.modeChar = some l.mode ∧
        ∃ k < depth, Distance t.sources root l.source k := by
  obtain ⟨found', hrun, hnodes, hnodup, hlinks⟩ := traverse_spec (load t).forward forwardLink root depth found
  simp only [distance_forward, next_forward] at hnodes
  simp only [distance_forward] at hlinks
  refine ⟨found', hrun, hnodes, hnodup, fun l => (hlinks l).trans (or_congr_right ?_)⟩
  constructor
  · rintro ⟨a, hnear, e, he, rfl⟩
    exact ⟨mem_forward.mp he, hnear⟩
  · rintro ⟨hedge, hnear⟩
    exact ⟨l.source, hnear, ⟨l.target, l.mode⟩, mem_forward.mpr hedge, rfl⟩

theorem reverse_spec (t : Tables) (root : ℤ) (depth : ℕ) (found : List ℤ × List Link) :
    ∃ found', traverse (load t).reverse reverseLink root depth found = some found' ∧
      (∀ x, x ∈ found'.1 ↔ x ∈ found.1 ∨ ∃ a, (∃ k < depth, Distance t.targets root a k) ∧ x ∈ t.targets a) ∧
      (found.1.Nodup → found'.1.Nodup) ∧
      ∀ l, l ∈ found'.2 ↔ l ∈ found.2 ∨ (t.edge l.source l.target).map DepRow.modeChar = some l.mode ∧
        ∃ k < depth, Distance t.targets root l.target k := by
  obtain ⟨found', hrun, hnodes, hnodup, hlinks⟩ := traverse_spec (load t).reverse reverseLink root depth found
  simp only [distance_reverse, next_reverse] at hnodes
  simp only [distance_reverse] at hlinks
  refine ⟨found', hrun, hnodes, hnodup, fun l => (hlinks l).trans (or_congr_right ?_)⟩
  constructor
  · rintro ⟨a, hnear, e, he, rfl⟩
    exact ⟨mem_reverse.mp he, hnear⟩
  · rintro ⟨hedge, hnear⟩
    exact ⟨l.target, hnear, ⟨l.source, l.mode⟩, mem_reverse.mpr hedge, rfl⟩

/-- Both loops, one after the other. -/
theorem search_found (t : Tables) (root : ℤ) (depth : ℕ) (dir : Dir) :
    ∃ found, ((if dir = .reverse then some ([root], []) else
        traverse (load t).forward forwardLink root depth ([root], [])).bind fun found =>
          if dir = .forward then some found else traverse (load t).reverse reverseLink root depth found) =
        some found ∧ Found t root depth dir found := by
  obtain ⟨f, hf, hfnodes, hfnodup, hflinks⟩ := forward_spec t root depth ([root], [])
  have hfnear : ∀ x, x ∈ f.1 ↔ ∃ k, k ≤ depth ∧ Distance t.sources root x k := fun x => by
    rw [hfnodes, List.mem_singleton, within_iff]
  have hflinks' : ∀ l, l ∈ f.2 ↔ (t.edge l.source l.target).map DepRow.modeChar = some l.mode ∧
      ∃ k < depth, Distance t.sources root l.source k := fun l =>
    (hflinks l).trans (or_iff_right List.not_mem_nil)
  have hone : [root].Nodup := List.nodup_singleton root
  cases dir with
  | forward =>
    refine ⟨f, ?_, fun x => ?_, hfnodup hone, fun l => ?_⟩
    · rw [if_neg (by decide), hf]
      rfl
    · rw [hfnear]
      simp [Near]
    · rw [hflinks']
      simp [Within]
  | reverse =>
    obtain ⟨r, hr, hrnodes, hrnodup, hrlinks⟩ := reverse_spec t root depth ([root], [])
    refine ⟨r, hr, fun x => ?_, hrnodup hone, fun l => ?_⟩
    · rw [hrnodes, List.mem_singleton, ← within_iff]
      simp [Near]
    · rw [hrlinks]
      simp [Within]
  | both =>
    obtain ⟨r, hr, hrnodes, hrnodup, hrlinks⟩ := reverse_spec t root depth f
    refine ⟨r, ?_, fun x => ?_, hrnodup (hfnodup hone), fun l => ?_⟩
    · rw [if_neg (by decide), hf, Option.bind_some, if_neg (by decide), hr]
    · have hroot : x = root → ∃ k, k ≤ depth ∧ Distance t.sources root x k := fun hx =>
        (within_iff depth).mpr (Or.inl hx)
      have hreverse := @within_iff _ t.targets root x depth
      rw [hrnodes, hfnear]
      simp only [Near, ne_eq, reduceCtorEq, not_false_eq_true, true_and, hreverse]
      constructor
      · exact fun h => h.imp_right Or.inr
      · rintro (h | hx | h)
        · exact Or.inl h
        · exact Or.inl (hroot hx)
        · exact Or.inr h
    · rw [hrlinks, hflinks', ← and_or_left]
      simp [Within]

theorem mem_nodesById {id : ℤ} {n : Node} :
    (load t).nodesById.lookup id = some n ↔ ∃ r ∈ t.files, r.id = id ∧ r.node = n := by
  have hkeys : ((load t).nodesById.map Prod.fst).Nodup := by
    rw [load, List.map_map]
    exact t.ids
  rw [lookup_iff_mem hkeys, load, List.mem_map]
  simp only [Prod.mk.injEq]

theorem idByName_of_mem {r : FileRow} (h : r ∈ t.files) : (load t).idByName.lookup r.name = some r.id := by
  have hkeys : ((load t).idByName.map Prod.fst).Nodup := by
    rw [load, List.map_map]
    exact t.names
  rw [lookup_iff_mem hkeys]
  exact List.mem_map.mpr ⟨r, h, rfl⟩

theorem nodeView_eq_some {id : ℤ} {v : NodeView} :
    (load t).nodeView id = some v ↔ ∃ r ∈ t.files, r.id = id ∧ v = ⟨r.name, r.node.isGenerated⟩ := by
  rw [Graph.nodeView, Option.map_eq_some_iff]
  constructor
  · rintro ⟨n, hn, rfl⟩
    obtain ⟨r, hr, hid, rfl⟩ := mem_nodesById.mp hn
    exact ⟨r, hr, hid, rfl⟩
  · rintro ⟨r, hr, hid, rfl⟩
    exact ⟨r.node, mem_nodesById.mpr ⟨r, hr, hid, rfl⟩, rfl⟩

theorem linkView_eq_some {l : Link} {v : LinkView} :
    (load t).linkView l = some v ↔ ∃ target ∈ t.files, ∃ source ∈ t.files,
      target.id = l.source ∧ source.id = l.target ∧ v = ⟨target.name, source.name, l.mode⟩ := by
  rw [Graph.linkView, Option.bind_eq_some_iff]
  constructor
  · rintro ⟨src, hsrc, hdst⟩
    obtain ⟨dst, hnode, rfl⟩ := Option.map_eq_some_iff.mp hdst
    obtain ⟨target, htarget, hid, rfl⟩ := mem_nodesById.mp hsrc
    obtain ⟨source, hsource, hid', rfl⟩ := mem_nodesById.mp hnode
    exact ⟨target, htarget, source, hsource, hid, hid', rfl⟩
  · rintro ⟨target, htarget, source, hsource, hid, hid', rfl⟩
    refine ⟨target.node, mem_nodesById.mpr ⟨target, htarget, hid, rfl⟩, Option.map_eq_some_iff.mpr ?_⟩
    exact ⟨source.node, mem_nodesById.mpr ⟨source, hsource, hid', rfl⟩, rfl⟩

theorem row_of_name {r r' : FileRow} (h : r ∈ t.files) (h' : r' ∈ t.files) (hname : r.name = r'.name) : r = r' :=
  List.inj_on_of_nodup_map t.names h h' hname

/-- What is found and known is shown. -/
theorem Found.exact {dir : Dir} (h : Found t root depth dir found) (rootName dirName : Text) :
    Exact t root depth dir
      { root := rootName
        depth
        dir := dirName
        nodes := sortBy NodeView.name (found.1.filterMap (load t).nodeView)
        links := (sortedUnique Link.key found.2).filterMap (load t).linkView } where
  nodes v := by
    rw [mem_sortBy, List.mem_filterMap]
    constructor
    · rintro ⟨id, hid, hview⟩
      obtain ⟨r, hr, rfl, rfl⟩ := nodeView_eq_some.mp hview
      exact ⟨r, hr, rfl, (h.nodes r.id).mp hid⟩
    · rintro ⟨r, hr, rfl, hnear⟩
      exact ⟨r.id, (h.nodes r.id).mpr hnear, nodeView_eq_some.mpr ⟨r, hr, rfl, rfl⟩⟩
  node_once := by
    have hperm := (List.perm_insertionSort (fun a b : NodeView => a.name ≤ b.name)
      (found.1.filterMap (load t).nodeView)).map NodeView.name
    refine hperm.nodup_iff.mpr (List.pairwise_map.mpr (List.Pairwise.filterMap _ ?_ h.nodup))
    intro a a' hne v hv v' hv' hname
    obtain ⟨r, hr, rfl, rfl⟩ := nodeView_eq_some.mp hv
    obtain ⟨r', hr', rfl, rfl⟩ := nodeView_eq_some.mp hv'
    exact hne (congrArg FileRow.id (row_of_name hr hr' hname))
  links v := by
    have hunique : ∀ a ∈ found.2, ∀ b ∈ found.2, a.key = b.key → a = b := by
      intro a ha b hb hkey
      have hsame := toLex.injective hkey
      obtain ⟨source, target, mode⟩ := a
      obtain ⟨source', target', mode'⟩ := b
      obtain ⟨rfl, rfl⟩ := Prod.mk.inj hsame
      have hmode := ((h.links _).mp ha).1.symm.trans ((h.links _).mp hb).1
      exact congrArg (Link.mk source target) (Option.some.inj hmode)
    rw [List.mem_filterMap]
    simp only [mem_sortedUnique_of_injOn hunique, h.links]
    constructor
    · rintro ⟨l, ⟨hedge, hwithin⟩, hview⟩
      obtain ⟨target, htarget, source, hsource, hid, hid', rfl⟩ := linkView_eq_some.mp hview
      obtain ⟨r, hr, hmode⟩ := Option.map_eq_some_iff.mp hedge
      refine ⟨target, htarget, source, hsource, r, ?_, ?_, ?_⟩
      · rw [hid, hid']
        exact hr
      · rw [hmode]
      · rw [hid, hid']
        exact hwithin
    · rintro ⟨target, htarget, source, hsource, r, hr, rfl, hwithin⟩
      refine ⟨⟨target.id, source.id, r.modeChar⟩, ⟨?_, hwithin⟩, ?_⟩
      · exact Option.map_eq_some_iff.mpr ⟨r, hr, rfl⟩
      · exact linkView_eq_some.mpr ⟨target, htarget, source, hsource, rfl, rfl, rfl⟩
  link_once := by
    refine List.pairwise_map.mpr (List.Pairwise.filterMap _ ?_ (pairwise_sortedUnique Link.key found.2))
    intro a a' hlt v hv v' hv' heq
    obtain ⟨target, htarget, source, hsource, hid, hid', rfl⟩ := linkView_eq_some.mp hv
    obtain ⟨target', htarget', source', hsource', hid₂, hid₂', rfl⟩ := linkView_eq_some.mp hv'
    simp only [Prod.mk.injEq] at heq
    have hrow := row_of_name htarget htarget' heq.1
    have hrow' := row_of_name hsource hsource' heq.2
    refine hlt.ne ?_
    rw [Link.key, Link.key, ← hid, ← hid', ← hid₂, ← hid₂', hrow, hrow']

/-- For every known root the search ends, and what it shows is exact. -/
theorem subgraph_exact {r : FileRow} (h : r ∈ t.files) (depth : ℕ) (dir : Dir) :
    ∃ g, (load t).subgraph r.name depth dir = some g ∧ Exact t r.id depth dir g := by
  obtain ⟨found, hfound, hspec⟩ := search_found t r.id depth dir
  refine ⟨_, ?_, hspec.exact r.name dir.asStr⟩
  rw [Graph.subgraph, idByName_of_mem h, Option.bind_some]
  obtain ⟨first, hfirst, hsecond⟩ := Option.bind_eq_some_iff.mp hfound
  rw [hfirst, Option.bind_some, hsecond]
  rfl

/-- `a` depends on `b` and on itself, `b` on `a` and on what is in no row of `Files`. -/
def loop : Tables where
  files := [⟨1, "a".toList, some 1⟩, ⟨2, "b".toList, some 1⟩]
  deps := [⟨1, 2, "m".toList, some 0⟩, ⟨1, 1, "c".toList, some 0⟩, ⟨2, 1, "m".toList, none⟩, ⟨2, 3, "m".toList, none⟩]
  ids := by decide
  names := by decide

theorem subgraph_exact_loop :
    ∃ g, (load loop).subgraph "a".toList 2 .both = some g ∧ Exact loop 1 2 .both g :=
  @subgraph_exact loop ⟨1, "a".toList, some 1⟩ (by decide) 2 .both

/-- One row of `Deps`, with a dependency that is in no row of `Files`. -/
def unknownDep : Tables where
  files := [⟨1, "a".toList, some 1⟩]
  deps := [⟨1, 2, "m".toList, some 0⟩]
  ids := by decide
  names := by decide

/-- An edge to a node that is not known is not shown. -/
theorem not_all_edges :
    ¬ ∀ (t : Tables) (r : FileRow) (depth : ℕ) (dir : Dir) (g : Subgraph), r ∈ t.files →
      (load t).subgraph r.name depth dir = some g → ∀ target source, (t.edge target source).isSome →
        Within t r.id dir depth target source → g.links ≠ [] := by
  intro h
  have hroot : ∃ k < 1, Distance unknownDep.sources 1 1 k :=
    (exists_distance_lt_iff 1).mpr ⟨0, Nat.one_pos, .refl 1⟩
  have hrun : (load unknownDep).subgraph "a".toList 1 .forward =
      some ⟨"a".toList, 1, "forward".toList, [⟨"a".toList, true⟩], []⟩ := by
    decide +kernel
  exact h unknownDep ⟨1, "a".toList, some 1⟩ 1 .forward _ (by decide) hrun 1 2 (by decide)
    (Or.inl ⟨by decide, hroot⟩) rfl

end Redo.Browse
