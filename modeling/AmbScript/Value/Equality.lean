import AmbScript.Value.Basic

/-!
# Two equalities

`strictEquals` is `===`: plain values are equal if they look alike, and pairs, arrays and
closures only to themselves. `structuralEquals` looks into pairs and arrays.
-/

namespace AmbScript.Value

/-- Numbers are compared as numbers: NaN differs from itself, and the zeros are equal. -/
def strictEquals : Value → Value → Bool
  | undefined, undefined => true
  | null, null => true
  | bool a, bool b => a == b
  | number a, number b => a == b
  | string a, string b => a == b
  | pair a .., pair b .. => a == b
  | array a _, array b _ => a == b
  | closure a .., closure b .. => a == b
  | primitive a, primitive b => a == b
  | _, _ => false

mutual

def structuralEquals : Value → Value → Bool
  | pair _ head tail, pair _ head' tail' =>
    structuralEquals head head' && structuralEquals tail tail'
  | array _ items, array _ items' => itemsEqual items items'
  | v, w => strictEquals v w

/-- As many items on both sides, equal one by one. -/
def itemsEqual : List Value → List Value → Bool
  | [], [] => true
  | v :: vs, w :: ws => structuralEquals v w && itemsEqual vs ws
  | _, _ => false

end

end AmbScript.Value
