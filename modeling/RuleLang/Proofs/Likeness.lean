import Mathlib.Data.Set.Card
import RuleLang.Json.OfNode
import RuleLang.Proofs.Leaves

/-!
Likeness of trees. A comparison looks at a tree up to the signs of its zeros; a document looks at it
up to those signs and its places. So the tree that a comparison sees is what its document says
together with the places of its leaves, in the order in which they are read.

Sets of nodes are kept by their hashes. Like nodes have the same hash, since like numbers do, so
that a set keeps one node of each class, however its members come.
-/
namespace RuleLang

namespace Number

/-- The number without the sign of a zero. -/
def canonical : Number → Number
  | finite negative m => finite (negative && m.units ≠ 0) m
  | infinite negative => infinite negative

theorem canonical_canonical (x : Number) : x.canonical.canonical = x.canonical := by
  cases x with
  | finite negative m => simp [canonical]
  | infinite negative => rfl

theorem alike_iff {x y : Number} : x.alike y ↔ x.canonical = y.canonical := by
  cases x with
  | infinite a => cases y <;> simp [alike, canonical]
  | finite a m =>
    cases y with
    | infinite b => simp [alike, canonical]
    | finite b n =>
      by_cases h : m = n
      · subst h
        by_cases hz : m.units = 0 <;> simp [alike, canonical, hz]
      · simp [alike, canonical, h]

end Number

namespace Lexeme

def canonical : Lexeme → Lexeme
  | number x => number x.canonical
  | x => x

theorem alike_iff {x y : Lexeme} : x.alike y ↔ x.canonical = y.canonical := by
  cases x <;> cases y <;> simp [alike, canonical, Number.alike_iff]

end Lexeme

namespace Token

def canonical (t : Token) : Token := ⟨t.lexeme.canonical, t.position⟩

theorem alike_iff {t u : Token} : t.alike u ↔ t.canonical = u.canonical := by
  simp [alike, canonical, Lexeme.alike_iff]

end Token

namespace Node

def canonical : Node → Node := mapLeaves Token.canonical

mutual

theorem alike_iff : ∀ a b : Node, a.alike b ↔ a.canonical = b.canonical
  | leaf t, b => by
    cases b with
    | leaf u => simp [alike, Token.alike_iff, canonical, mapLeaves]
    | _ => exact iff_of_false Bool.false_ne_true nofun
  | block xs, b => by
    cases b with
    | block ys => simp [alike, alikeAll_iff xs ys, canonical, mapLeaves]
    | _ => exact iff_of_false Bool.false_ne_true nofun
  | call f xs, b => by
    cases b with
    | call g ys => simp [alike, alike_iff f g, alikeAll_iff xs ys, canonical, mapLeaves]
    | _ => exact iff_of_false Bool.false_ne_true nofun
  | rule name params body, b => by
    cases b with
    | rule name' params' body' =>
      simp [alike, alike_iff body body', canonical, mapLeaves, and_assoc]
    | _ => exact iff_of_false Bool.false_ne_true nofun
  | binary op x y, b => by
    cases b with
    | binary op' x' y' =>
      simp [alike, alike_iff x x', alike_iff y y', canonical, mapLeaves, and_assoc]
    | _ => exact iff_of_false Bool.false_ne_true nofun
  | assign x y, b => by
    cases b with
    | assign x' y' => simp [alike, alike_iff x x', alike_iff y y', canonical, mapLeaves]
    | _ => exact iff_of_false Bool.false_ne_true nofun
  | truth v, b => by
    cases b with
    | truth w => simp [alike, canonical, mapLeaves]
    | _ => exact iff_of_false Bool.false_ne_true nofun
  | blank, b => by
    cases b with
    | blank => exact iff_of_true rfl rfl
    | _ => exact iff_of_false Bool.false_ne_true nofun

theorem alikeAll_iff : ∀ xs ys : List Node,
    alikeAll xs ys ↔ mapLeavesAll Token.canonical xs = mapLeavesAll Token.canonical ys
  | [], [] => iff_of_true rfl rfl
  | [], _ :: _ | _ :: _, [] => iff_of_false Bool.false_ne_true nofun
  | x :: xs, y :: ys => by
    simpa [alikeAll, mapLeavesAll, canonical, alike_iff x y] using fun _ => alikeAll_iff xs ys

end

end Node

/-- A truth value as a number. -/
def Number.ofTruth (value : Bool) : Number := finite false (if value then .one else .zero)

namespace Json

mutual

/-- Whether two values are equal. Numbers are compared by value, truth values with numbers as one
and zero, and objects by what stands under their keys, in whichever order. -/
def alike : Json → Json → Bool
  | null, null => true
  | bool a, bool b => a = b
  | bool a, number y => (Number.ofTruth a).alike y
  | number x, bool b => x.alike (Number.ofTruth b)
  | number x, number y => x.alike y
  | text s, text t => s = t
  | array xs, array ys => alikeAll xs ys
  | object ps, object qs => ps.length = qs.length && alikeUnder ps qs
  | _, _ => false

def alikeAll : List Json → List Json → Bool
  | [], [] => true
  | x :: xs, y :: ys => alike x y && alikeAll xs ys
  | _, _ => false

def alikeUnder : List (String × Json) → List (String × Json) → Bool
  | [], _ => true
  | (key, x) :: ps, qs => (qs.lookup key).any (alike x) && alikeUnder ps qs

end

@[simp] theorem alike_text (s t : String) : (text s).alike (text t) = decide (s = t) := rfl

@[simp] theorem alike_bool (a b : Bool) : (bool a).alike (bool b) = decide (a = b) := rfl

@[simp] theorem alike_number (x y : Number) : (number x).alike (number y) = x.alike y := rfl

@[simp] theorem alike_array (xs ys : List Json) :
    (array xs).alike (array ys) = alikeAll xs ys := rfl

@[simp] theorem alikeAll_cons (x y : Json) (xs ys : List Json) :
    alikeAll (x :: xs) (y :: ys) = (alike x y && alikeAll xs ys) := rfl

@[simp] theorem alike_tagged (k l : String) (ps qs : List (String × Json)) :
    (tagged k ps).alike (tagged l qs) =
      (ps.length + 1 = qs.length + 1 && (k = l && alikeUnder ps (("type", text l) :: qs))) := by
  simp [tagged, alike, alikeUnder]

end Json

namespace Node

def outline : Node → Node := mapLeaves fun t => ⟨t.lexeme.canonical, .start⟩

def tag : Node → String
  | leaf t => t.kind.name
  | block _ => "block"
  | call _ _ => "call"
  | rule _ _ _ => "rule"
  | binary _ _ _ => "binary"
  | assign _ _ => "assign"
  | truth _ => "bool"
  | blank => ""

theorem tag_of_alike {a b : Node} (h : a.toJson.alike b.toJson) : a.tag = b.tag := by
  have htagged (n : Node) : ∃ parts, n.toJson = .tagged n.tag parts := by
    cases n <;> exact ⟨_, rfl⟩
  obtain ⟨ps, ha⟩ := htagged a
  obtain ⟨qs, hb⟩ := htagged b
  rw [ha, hb, Json.alike_tagged] at h
  simp only [Bool.and_eq_true, decide_eq_true_eq] at h
  exact h.2.1

def isLeaf : Node → Bool
  | leaf _ => true
  | _ => false

theorem tag_ne_kind {n : Node} (h : n.isLeaf = false) (k : Kind) : n.tag ≠ k.name := by
  cases n with
  | leaf t => cases h
  | _ => cases k <;> simp [tag, Kind.name]

theorem leaf_alike (t u : Token) : (leaf t).toJson.alike (leaf u).toJson ↔
    t.lexeme.canonical = u.lexeme.canonical := by
  obtain ⟨x, p⟩ := t
  obtain ⟨y, q⟩ := u
  cases x <;> cases y <;>
    simp [toJson, Token.toJson, Token.kind, Lexeme.kind, Kind.name, Lexeme.value, Json.alikeUnder,
      List.lookup_cons, Lexeme.canonical, Number.alike_iff]

theorem apart_leaf {n : Node} (h : n.isLeaf = false) (t : Token) :
    n.toJson.alike (leaf t).toJson ↔ n.outline = (leaf t).outline := by
  refine iff_of_false (fun hj => tag_ne_kind h t.kind (tag_of_alike hj)) ?_
  cases n with
  | leaf u => cases h
  | _ => exact nofun

theorem texts_alike (ps qs : List String) : (Json.texts ps).alike (.texts qs) ↔ ps = qs := by
  rw [Json.texts, Json.texts, Json.alike_array]
  induction ps generalizing qs with
  | nil => cases qs <;> simp [Json.alikeAll]
  | cons p ps ih => cases qs <;> simp_all [Json.alikeAll]

mutual

theorem toJson_alike : ∀ a b : Node, a.toJson.alike b.toJson ↔ a.outline = b.outline
  | leaf t, b => by
    cases b with
    | leaf u => simp [leaf_alike, outline, mapLeaves]
    | _ => exact iff_of_false (fun h => tag_ne_kind rfl t.kind (tag_of_alike h).symm) nofun
  -- Of the other nodes, two of different kinds have different tags or numbers of parts.
  | block xs, b => by
    have ih := toJsonAll_alike xs
    cases b with
    | block ys => simp [toJson, Json.alikeUnder, List.lookup_cons, ih, outline, mapLeaves]
    | leaf t => exact apart_leaf rfl t
    | _ => exact iff_of_false Bool.false_ne_true nofun
  | call f xs, b => by
    have ih := toJson_alike f
    have ihs := toJsonAll_alike xs
    cases b with
    | call g ys => simp [toJson, Json.alikeUnder, List.lookup_cons, ih, ihs, outline, mapLeaves]
    | leaf t => exact apart_leaf rfl t
    | _ => exact iff_of_false Bool.false_ne_true nofun
  | rule name params body, b => by
    have ih := toJson_alike body
    cases b with
    | rule name' params' body' =>
      cases name <;> cases name' <;>
        simp [toJson, Json.alike, Json.alikeUnder, List.lookup_cons, texts_alike, ih, outline,
          mapLeaves]
    | leaf t => exact apart_leaf rfl t
    | _ => exact iff_of_false Bool.false_ne_true nofun
  | binary op x y, b => by
    have ihx := toJson_alike x
    have ihy := toJson_alike y
    cases b with
    | binary op' x' y' =>
      simp [toJson, Json.alikeUnder, List.lookup_cons, ihx, ihy, outline, mapLeaves]
    | leaf t => exact apart_leaf rfl t
    | _ => exact iff_of_false Bool.false_ne_true nofun
  | assign x y, b => by
    have ihx := toJson_alike x
    have ihy := toJson_alike y
    cases b with
    | assign x' y' =>
      simp [toJson, Json.alikeUnder, List.lookup_cons, ihx, ihy, outline, mapLeaves]
    | leaf t => exact apart_leaf rfl t
    | _ => exact iff_of_false Bool.false_ne_true nofun
  | truth v, b => by
    cases b with
    | truth w => simp [toJson, Json.alikeUnder, List.lookup_cons, outline, mapLeaves]
    | leaf t => exact apart_leaf rfl t
    | _ => exact iff_of_false Bool.false_ne_true nofun
  | blank, b => by
    cases b with
    | blank => exact iff_of_true rfl rfl
    | leaf t => exact apart_leaf rfl t
    | _ => exact iff_of_false Bool.false_ne_true nofun

theorem toJsonAll_alike : ∀ xs ys : List Node,
    Json.alikeAll (toJsonAll xs) (toJsonAll ys) ↔
      mapLeavesAll (fun t => ⟨t.lexeme.canonical, .start⟩) xs =
        mapLeavesAll (fun t => ⟨t.lexeme.canonical, .start⟩) ys
  | [], [] => iff_of_true rfl rfl
  | [], _ :: _ | _ :: _, [] => iff_of_false Bool.false_ne_true nofun
  | x :: xs, y :: ys => by
    have ih : _ ↔ mapLeaves _ x = mapLeaves _ y := toJson_alike x y
    have ihs := toJsonAll_alike xs ys
    simp [toJsonAll, mapLeavesAll, ih, ihs]

end

theorem unplaced_canonical (n : Node) : n.canonical.unplaced = n.outline :=
  mapLeaves_mapLeaves _ _ n

theorem canonical_unplaced (n : Node) : n.unplaced.canonical = n.outline :=
  mapLeaves_mapLeaves _ _ n

theorem positions_canonical (n : Node) :
    n.canonical.leaves.map (·.position) = n.leaves.map (·.position) := by
  rw [canonical, leaves_mapLeaves, List.map_map]
  rfl

theorem alike_equivalence : Equivalence fun a b : Node => a.alike b = true where
  refl a := (alike_iff a a).2 rfl
  symm {a b} h := (alike_iff b a).2 ((alike_iff a b).1 h).symm
  trans {a b c} h h' := (alike_iff a c).2 (((alike_iff a b).1 h).trans ((alike_iff b c).1 h'))

def classOf (n : Node) : Set Node := {m | n.alike m}

theorem classOf_eq {a b : Node} : classOf a = classOf b ↔ a.alike b := by
  constructor
  · intro h
    have hb : b ∈ classOf b := alike_equivalence.refl b
    rw [← h] at hb
    exact hb
  · intro h
    ext m
    exact ⟨alike_equivalence.trans (alike_equivalence.symm h), alike_equivalence.trans h⟩

def classes (ns : List Node) : Set (Set Node) := classOf '' {n | n ∈ ns}

@[simp] theorem classes_nil : classes [] = ∅ := by
  simp [classes]

theorem finite_classes (ns : List Node) : (classes ns).Finite :=
  (List.finite_toSet ns).image classOf

theorem classes_cons (n : Node) (ns : List Node) :
    classes (n :: ns) = insert (classOf n) (classes ns) := by
  rw [classes, classes, ← Set.image_insert_eq]
  congr 1
  ext m
  simp

theorem classOf_mem {n : Node} {ns : List Node} :
    classOf n ∈ classes ns ↔ ns.any (alike n) = true := by
  simp only [classes, Set.mem_image, Set.mem_ofPred_eq, List.any_eq_true]
  constructor
  · rintro ⟨m, hm, h⟩
    exact ⟨m, hm, classOf_eq.1 h.symm⟩
  · rintro ⟨m, hm, h⟩
    exact ⟨m, hm, (classOf_eq.2 h).symm⟩

theorem distinct_eq (ns : List Node) : distinct ns = (classes ns).ncard := by
  induction ns with
  | nil => simp [distinct]
  | cons n ns ih =>
    rw [distinct, classes_cons, ih]
    split
    · next h => rw [Set.ncard_insert_of_mem (classOf_mem.2 h), Nat.add_zero]
    · next h => rw [Set.ncard_insert_of_notMem (mt classOf_mem.1 h) (finite_classes ns)]

end Node

/-- Hashes of what nodes are made of, and of tuples. Like numbers have the same hash. -/
structure Hashing where
  text : String → UInt64
  number : Number → UInt64
  integer : Int → UInt64
  truth : Bool → UInt64
  absent : UInt64
  kind : String → UInt64
  tuple : List UInt64 → UInt64
  number_alike {x y : Number} : x.alike y → number x = number y

namespace Hashing

instance : Inhabited Hashing where
  default :=
    { text := hash, number := fun x => hash x.canonical.text, integer := hash, truth := hash
      absent := 0, kind := hash, tuple := hash
      number_alike := fun h => by rw [Number.alike_iff.1 h] }

variable (h : Hashing)

def lexeme : Lexeme → UInt64
  | .number x => h.number x
  | .string s | .identifier s | .keyword s | .operator s | .punctuation s => h.text s

def token (t : Token) : UInt64 :=
  h.tuple [h.text t.kind.name, h.lexeme t.lexeme, h.integer t.position.line,
    h.integer t.position.column]

def composite (name : String) (parts : List UInt64) : UInt64 := h.tuple [h.kind name, h.tuple parts]

mutual

def node : Node → UInt64
  | .leaf t => h.token t
  | .block body => h.composite "Block" [h.tuple (nodes body)]
  | .call callee args => h.composite "Call" [node callee, h.tuple (nodes args)]
  | .rule name params body =>
    h.composite "Rule"
      [(name.map h.text).getD h.absent, h.tuple (params.map h.text), node body]
  | .binary op left right => h.composite "BinaryExpr" [h.text op, node left, node right]
  | .assign left right => h.composite "Assign" [node left, node right]
  | .truth value => h.composite "BoolLiteral" [h.truth value]
  | .blank => h.composite "ASTNode" []

def nodes : List Node → List UInt64
  | [] => []
  | n :: ns => node n :: nodes ns

end

theorem token_canonical (t : Token) : h.token t.canonical = h.token t := by
  obtain ⟨x, p⟩ := t
  cases x with
  | number x =>
    have hx : h.number x.canonical = h.number x :=
      h.number_alike (Number.alike_iff.2 x.canonical_canonical)
    simp only [token, Token.canonical, Token.kind, Lexeme.canonical, Lexeme.kind, lexeme, hx]
  | _ => rfl

mutual

theorem node_canonical : ∀ n : Node, h.node (n.mapLeaves Token.canonical) = h.node n
  | .leaf t => h.token_canonical t
  | .block body => by simp [Node.mapLeaves, node, nodes_canonical body]
  | .call callee args => by
    simp [Node.mapLeaves, node, node_canonical callee, nodes_canonical args]
  | .rule name params body => by simp [Node.mapLeaves, node, node_canonical body]
  | .binary op left right => by
    simp [Node.mapLeaves, node, node_canonical left, node_canonical right]
  | .assign left right => by
    simp [Node.mapLeaves, node, node_canonical left, node_canonical right]
  | .truth _ | .blank => rfl

theorem nodes_canonical : ∀ ns : List Node,
    h.nodes (Node.mapLeavesAll Token.canonical ns) = h.nodes ns
  | [] => rfl
  | n :: ns => by
    simp [Node.mapLeavesAll, nodes, node_canonical n, nodes_canonical ns]

end

theorem node_alike {a b : Node} (hab : a.alike b) : h.node a = h.node b := by
  have hcanonical : a.mapLeaves Token.canonical = b.mapLeaves Token.canonical :=
    (Node.alike_iff a b).1 hab
  rw [← h.node_canonical a, ← h.node_canonical b, hcanonical]

def insert (kept : List Node) (n : Node) : List Node :=
  if kept.any fun m => h.node n = h.node m && n.alike m then kept else n :: kept

def collect (ns : List Node) : List Node := ns.foldl h.insert []

theorem insert_eq (kept : List Node) (n : Node) :
    h.insert kept n = if kept.any n.alike then kept else n :: kept := by
  have hany : (kept.any fun m => h.node n = h.node m && n.alike m) = kept.any n.alike := by
    congr 1
    ext m
    simpa using h.node_alike
  rw [insert, hany]

theorem classes_insert (kept : List Node) (n : Node) :
    Node.classes (h.insert kept n) = Insert.insert (Node.classOf n) (Node.classes kept) := by
  rw [insert_eq]
  split
  · next hk => rw [Set.insert_eq_of_mem (Node.classOf_mem.2 hk)]
  · rw [Node.classes_cons]

theorem length_insert {kept : List Node} (hk : kept.length = (Node.classes kept).ncard) (n : Node) :
    (h.insert kept n).length = (Node.classes (h.insert kept n)).ncard := by
  rw [insert_eq]
  split
  · exact hk
  · next hn =>
    rw [Node.classes_cons, List.length_cons, hk,
      Set.ncard_insert_of_notMem (mt Node.classOf_mem.1 hn) (Node.finite_classes kept)]

theorem length_collect (ns : List Node) : (h.collect ns).length = (Node.classes ns).ncard := by
  -- From any set of different classes on, the classes that are kept are those seen so far.
  suffices hrun : ∀ kept : List Node, kept.length = (Node.classes kept).ncard →
      (ns.foldl h.insert kept).length = (Node.classes kept ∪ Node.classes ns).ncard by
    simpa [collect] using hrun [] (by simp)
  induction ns with
  | nil =>
    intro kept hk
    simpa using hk
  | cons n ns ih =>
    intro kept hk
    rw [List.foldl_cons, ih _ (h.length_insert hk n), classes_insert, Node.classes_cons,
      Set.insert_union, Set.union_insert]

end Hashing

namespace Node

/-- Two nodes are alike if and only if their documents are equal and their leaves stand at the same
places. So likeness is an equivalence, a document tells a node up to its places, and a list of nodes
has as many distinct members as classes, in a set that is kept by hashes too. -/
theorem alike_iff_document_positions :
    (∀ a b : Node, a.alike b ↔
      a.toJson.alike b.toJson ∧ a.leaves.map (·.position) = b.leaves.map (·.position)) ∧
    (Equivalence fun a b : Node => a.alike b = true) ∧
    (∀ a b : Node, a.toJson.alike b.toJson ↔ a.unplaced.alike b.unplaced) ∧
    (∀ ns : List Node, distinct ns = (classes ns).ncard) ∧
    ∀ (h : Hashing) (ns : List Node), (h.collect ns).length = distinct ns := by
  refine ⟨fun a b => ?_, alike_equivalence, fun a b => ?_, distinct_eq, fun h ns => ?_⟩
  · rw [alike_iff, eq_iff_unplaced, unplaced_canonical, unplaced_canonical, positions_canonical,
      positions_canonical, toJson_alike]
  · rw [toJson_alike, alike_iff, canonical_unplaced, canonical_unplaced]
  · rw [h.length_collect, distinct_eq]

end Node

end RuleLang
