import Mathlib.Tactic.Common
import RuleLang.Node

/-!
Trees leaf by leaf. A tree is told by its leaves and by what is left of it when they are made all
alike; a map of the leaves keeps everything else.
-/
namespace RuleLang

def Token.moved (f : Position → Position) (t : Token) : Token := ⟨t.lexeme, f t.position⟩

namespace Node

mutual

def mapLeaves (g : Token → Token) : Node → Node
  | leaf t => leaf (g t)
  | block body => block (mapLeavesAll g body)
  | call callee args => call (mapLeaves g callee) (mapLeavesAll g args)
  | rule name params body => rule name params (mapLeaves g body)
  | binary op left right => binary op (mapLeaves g left) (mapLeaves g right)
  | assign left right => assign (mapLeaves g left) (mapLeaves g right)
  | truth value => truth value
  | blank => blank

def mapLeavesAll (g : Token → Token) : List Node → List Node
  | [] => []
  | n :: ns => mapLeaves g n :: mapLeavesAll g ns

end

def moved (f : Position → Position) : Node → Node := mapLeaves (Token.moved f)

/-- A tree without its places. -/
def unplaced : Node → Node := moved fun _ => .start

theorem mapLeavesAll_eq (g : Token → Token) (ns : List Node) :
    mapLeavesAll g ns = ns.map (mapLeaves g) := by
  induction ns with
  | nil => rfl
  | cons n ns ih => rw [mapLeavesAll, ih, List.map_cons]

theorem unplaced_leaf (t : Token) : (leaf t).unplaced = leaf ⟨t.lexeme, .start⟩ := rfl

theorem unplaced_block (body : List Node) : (block body).unplaced = block (body.map unplaced) :=
  congrArg block (mapLeavesAll_eq _ body)

theorem unplaced_call (callee : Node) (args : List Node) :
    (call callee args).unplaced = call callee.unplaced (args.map unplaced) :=
  congrArg (call _) (mapLeavesAll_eq _ args)

theorem unplaced_rule (name : Option String) (params : List String) (body : Node) :
    (rule name params body).unplaced = rule name params body.unplaced := rfl

theorem unplaced_binary (op : String) (left right : Node) :
    (binary op left right).unplaced = binary op left.unplaced right.unplaced := rfl

theorem unplaced_assign (left right : Node) :
    (assign left right).unplaced = assign left.unplaced right.unplaced := rfl

section Maps

variable (g h : Token → Token)

mutual

theorem leaves_mapLeaves : ∀ n : Node, (mapLeaves g n).leaves = n.leaves.map g
  | leaf _ | truth _ | blank => rfl
  | block body => leavesAll_mapLeaves body
  | call f xs => by
    rw [mapLeaves, leaves, leaves, List.map_append, leaves_mapLeaves f, leavesAll_mapLeaves xs]
  | rule _ _ body => leaves_mapLeaves body
  | binary _ a b | assign a b => by
    rw [mapLeaves, leaves, leaves, List.map_append, leaves_mapLeaves a, leaves_mapLeaves b]

theorem leavesAll_mapLeaves : ∀ ns : List Node,
    leavesAll (mapLeavesAll g ns) = (leavesAll ns).map g
  | [] => rfl
  | n :: ns => by
    rw [mapLeavesAll, leavesAll, leavesAll, List.map_append, leaves_mapLeaves n,
      leavesAll_mapLeaves ns]

end

mutual

theorem mapLeaves_mapLeaves : ∀ n : Node, mapLeaves h (mapLeaves g n) = mapLeaves (h ∘ g) n
  | leaf _ | truth _ | blank => rfl
  | block body => congrArg block (mapLeavesAll_mapLeaves body)
  | call f xs => congrArg₂ call (mapLeaves_mapLeaves f) (mapLeavesAll_mapLeaves xs)
  | rule _ _ body => congrArg (rule _ _) (mapLeaves_mapLeaves body)
  | binary _ a b => congrArg₂ (binary _) (mapLeaves_mapLeaves a) (mapLeaves_mapLeaves b)
  | assign a b => congrArg₂ assign (mapLeaves_mapLeaves a) (mapLeaves_mapLeaves b)

theorem mapLeavesAll_mapLeaves : ∀ ns : List Node,
    mapLeavesAll h (mapLeavesAll g ns) = mapLeavesAll (h ∘ g) ns
  | [] => rfl
  | n :: ns => congrArg₂ List.cons (mapLeaves_mapLeaves n) (mapLeavesAll_mapLeaves ns)

end

variable {g}

theorem length_leaves {a b : Node} (h : a.mapLeaves g = b.mapLeaves g) :
    a.leaves.length = b.leaves.length := by
  have hleaves := congrArg (fun n => n.leaves.length) h
  simpa only [leaves_mapLeaves, List.length_map] using hleaves

mutual

theorem eq_of_leaves : ∀ {a b : Node}, a.mapLeaves g = b.mapLeaves g → a.leaves = b.leaves → a = b
  | leaf t, b, h, hl => by
    cases b with
    | leaf u => rw [List.singleton_inj.1 hl]
    | _ => cases h
  | block xs, b, h, hl => by
    cases b with
    | block ys => rw [eqAll_of_leaves (block.inj h) hl]
    | _ => cases h
  | call f xs, b, h, hl => by
    cases b with
    | call f' ys =>
      obtain ⟨hf, hxs⟩ := call.inj h
      obtain ⟨hlf, hlxs⟩ := List.append_inj hl (length_leaves hf)
      rw [eq_of_leaves hf hlf, eqAll_of_leaves hxs hlxs]
    | _ => cases h
  | rule name params body, b, h, hl => by
    cases b with
    | rule name' params' body' =>
      obtain ⟨rfl, rfl, hbody⟩ := rule.inj h
      rw [eq_of_leaves hbody hl]
    | _ => cases h
  | binary op x y, b, h, hl => by
    cases b with
    | binary op' x' y' =>
      obtain ⟨rfl, hx, hy⟩ := binary.inj h
      obtain ⟨hlx, hly⟩ := List.append_inj hl (length_leaves hx)
      rw [eq_of_leaves hx hlx, eq_of_leaves hy hly]
    | _ => cases h
  | assign x y, b, h, hl => by
    cases b with
    | assign x' y' =>
      obtain ⟨hx, hy⟩ := assign.inj h
      obtain ⟨hlx, hly⟩ := List.append_inj hl (length_leaves hx)
      rw [eq_of_leaves hx hlx, eq_of_leaves hy hly]
    | _ => cases h
  | truth v, b, h, _ => by
    cases b with
    | truth w => exact h
    | _ => cases h
  | blank, b, h, _ => by
    cases b with
    | blank => rfl
    | _ => cases h

theorem eqAll_of_leaves : ∀ {xs ys : List Node},
    mapLeavesAll g xs = mapLeavesAll g ys → leavesAll xs = leavesAll ys → xs = ys
  | [], [], _, _ => rfl
  | x :: xs, y :: ys, h, hl => by
    obtain ⟨hx, hxs⟩ := List.cons.inj h
    obtain ⟨hlx, hlxs⟩ := List.append_inj hl (length_leaves hx)
    rw [eq_of_leaves hx hlx, eqAll_of_leaves hxs hlxs]

end

end Maps

theorem eq_iff_unplaced {a b : Node} : a = b ↔
    a.unplaced = b.unplaced ∧ a.leaves.map (·.position) = b.leaves.map (·.position) := by
  constructor
  · rintro rfl
    exact ⟨rfl, rfl⟩
  · rintro ⟨h, hp⟩
    have hlexemes (n : Node) : n.unplaced.leaves.map (·.lexeme) = n.leaves.map (·.lexeme) := by
      rw [unplaced, moved, leaves_mapLeaves, List.map_map]
      rfl
    have hx : a.leaves.map (·.lexeme) = b.leaves.map (·.lexeme) := by
      rw [← hlexemes a, ← hlexemes b, h]
    have hzip (ts : List Token) :
        ts = List.zipWith Token.mk (ts.map (·.lexeme)) (ts.map (·.position)) := by
      rw [List.zipWith_map, List.zipWith_self, List.map_id']
    refine eq_of_leaves h ?_
    rw [hzip a.leaves, hzip b.leaves, hx, hp]

end Node

end RuleLang
