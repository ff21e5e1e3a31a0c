import TensorGraph.Shape.Basic

/-! Shapes as listings and error texts show them. -/
namespace TensorGraph

/-- A list as it stands between braces in listings. -/
def joinNats (ns : List Nat) : String :=
  String.intercalate ", " (ns.map toString)

def bracketed (items : List String) : String :=
  "[" ++ String.intercalate ", " items ++ "]"

def braced (s : String) : String :=
  "\x7b" ++ s ++ "\x7d"

def DynamicDimension.text (d : DynamicDimension) : String :=
  let hints := if d.optimals.isEmpty then "" else ", " ++ braced (joinNats d.optimals)
  "[" ++ toString d.min ++ ", " ++ toString d.max ++ hints ++ "]"

def DynamicDimension.fieldText (d : DynamicDimension) : String :=
  "DynamicDimension \x7b min: " ++ toString d.min ++ ", max: " ++ toString d.max ++
    ", optimals: " ++ bracketed (d.optimals.map toString) ++ " \x7d"

namespace Shape

mutual

/-- Type, lengths and strides; ranges for dynamic shapes; sub-shapes in brackets for tuples. -/
def text : Shape → String
  | ⟨t, lens, strides, dims, subs⟩ =>
    if t = .tuple then bracketed (texts subs)
    else if dims.isEmpty then
      t.name ++ ", " ++ braced (joinNats lens) ++ ", " ++ braced (joinNats strides)
    else t.name ++ ", " ++ braced (String.intercalate ", " (dims.map DynamicDimension.text))

def texts : List Shape → List String
  | [] => []
  | s :: rest => s.text :: texts rest

end

def typeText (t : ElementType) : String :=
  match t.tag.toList with
  | c :: rest => String.ofList (c.toUpper :: rest)
  | [] => ""

mutual

def fieldText : Shape → String
  | ⟨t, lens, strides, dims, subs⟩ =>
    "Shape \x7b ty: " ++ typeText t ++ ", lens: " ++ bracketed (lens.map toString) ++
      ", strides: " ++ bracketed (strides.map toString) ++
      ", dyn_dims: " ++ bracketed (dims.map DynamicDimension.fieldText) ++
      ", sub_shapes: " ++ bracketed (fieldTexts subs) ++ " \x7d"

def fieldTexts : List Shape → List String
  | [] => []
  | s :: rest => s.fieldText :: fieldTexts rest

end

end Shape
end TensorGraph
