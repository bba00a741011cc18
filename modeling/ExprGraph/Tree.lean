import ExprGraph.Graph.Meaning

/-!
# Expression trees

A node unfolds to the tree of the expression it stands for.  Unfolding is evaluation in the free
interpretation, the one in which every operator just builds a tree.
-/

namespace ExprGraph

/-- An expression without sharing. -/
inductive Tree where
  | var (id : Nat)
  | lit (value : Float)
  | unary (op : Op) (a : Tree)
  | binary (op : Op) (a b : Tree)
  | select (c a b : Tree)
deriving DecidableEq

namespace Tree

/-- Trees that agree up to the operand order of commutative operators. -/
inductive Alike : Tree → Tree → Prop
  | var (id : Nat) : Alike (var id) (var id)
  | lit (v : Float) : Alike (lit v) (lit v)
  | unary (op : Op) {a a' : Tree} : Alike a a' → Alike (unary op a) (unary op a')
  | binary (op : Op) {a a' b b' : Tree} :
      Alike a a' → Alike b b' → Alike (binary op a b) (binary op a' b')
  | swapped {op : Op} {a a' b b' : Tree} :
      op.isCommutative → Alike a b' → Alike b a' → Alike (binary op a b) (binary op a' b')
  | select {c c' a a' b b' : Tree} :
      Alike c c' → Alike a a' → Alike b b' → Alike (select c a b) (select c' a' b')

theorem Alike.refl (t : Tree) : Alike t t := by
  induction t with
  | var id => exact .var id
  | lit v => exact .lit v
  | unary op a iha => exact .unary op iha
  | binary op a b iha ihb => exact .binary op iha ihb
  | select c a b ihc iha ihb => exact .select ihc iha ihb

theorem Alike.symm {t s : Tree} (hts : Alike t s) : Alike s t := by
  induction hts with
  | var id => exact .var id
  | lit v => exact .lit v
  | unary op _ iha => exact .unary op iha
  | binary op _ _ iha ihb => exact .binary op iha ihb
  | swapped hop _ _ iha ihb => exact .swapped hop ihb iha
  | select _ _ _ ihc iha ihb => exact .select ihc iha ihb

end Tree

/-- The interpretation that builds trees. -/
def Interpretation.free : Interpretation Tree where
  literal := .lit
  unary := .unary
  binary := .binary
  choose := .select

/-- The tree of a node. -/
def Graph.tree? (g : Graph) (h : Handle) : Option Tree :=
  g.value? .free (fun x => (g.variableAt x).toOption.map fun (id, _) => .var id) h

end ExprGraph
