import Assay.Shape.Basic
/-!
# Acceptance between shapes

One shape accepts another when every value of the other is a value of the one, as far as the rules below can tell.  The
alternatives of the accepted shape are taken apart first, then those of the accepting one, and only then the structure
is compared.
-/
namespace Assay.Shape

def acceptsLiteral : Shape → Literal → Bool
  | literal l, l' => l == l'
  | string, .string _ => true
  | number, .number _ => true
  | boolean, .boolean _ => true
  | integer, .number x => x.isIntegral
  | _, _ => false

mutual

/-- Whether every value of `b` is a value of `a`. -/
def accepts (a b : Shape) : Bool :=
  match a, b with
  | unknown, _ => true
  | a, union bs => acceptsAll a bs
  | union as, b => anyAccepts as b
  | named n, named n' => n == n'
  | string, string => true
  | number, number => true
  | number, integer => true
  | integer, integer => true
  | boolean, boolean => true
  | null, null => true
  | array item, array item' => accepts item item'
  | array item, tuple items => acceptsAll item items
  | tuple items, tuple items' => acceptsEach items items'
  | object fields, object fields' => acceptsFields fields fields'
  | a, literal l => acceptsLiteral a l
  | _, _ => false
termination_by sizeOf a + sizeOf b

def acceptsAll (a : Shape) (bs : List Shape) : Bool :=
  match bs with
  | [] => true
  | b :: bs => accepts a b && acceptsAll a bs
termination_by sizeOf a + sizeOf bs

def anyAccepts (as : List Shape) (b : Shape) : Bool :=
  match as with
  | [] => false
  | a :: as => accepts a b || anyAccepts as b
termination_by sizeOf as + sizeOf b

/-- Whether there are as many accepted shapes as accepting ones, each accepted by the one in its place. -/
def acceptsEach (as bs : List Shape) : Bool :=
  match as, bs with
  | [], [] => true
  | a :: as, b :: bs => accepts a b && acceptsEach as bs
  | _, _ => false
termination_by sizeOf as + sizeOf bs

/-- Whether each field of the one object is met by the first field of that name in the other, or may be absent.  A
field that the other object may lack has to be optional. -/
def acceptsFields (fields others : List ShapeField) : Bool :=
  match fields with
  | [] => true
  | field :: rest =>
    acceptsField field others && acceptsFields rest others
termination_by sizeOf fields + sizeOf others

/-- Whether a field is met by the first field of its name among some others, or may be absent. -/
def acceptsField (field : ShapeField) (others : List ShapeField) : Bool :=
  match field, others with
  | ⟨_, _, optional⟩, [] => optional
  | ⟨name, shape, optional⟩, ⟨name', shape', optional'⟩ :: others =>
    if name' = name then accepts shape shape' && (optional || !optional')
    else acceptsField ⟨name, shape, optional⟩ others
termination_by sizeOf field + sizeOf others

end

end Assay.Shape
