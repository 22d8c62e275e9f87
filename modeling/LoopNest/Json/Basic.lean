/-!
# JSON values

Objects keep their fields in order, and a key may come twice. A string literal is a text, unless its
escapes leave half of a surrogate pair alone; such a literal is well formed but denotes no text.

* `Json`, `Json.text`, `Json.object`.
-/

namespace LoopNest

/-- A JSON value. A number that is not written as a plain integer keeps its spelling. -/
inductive Json where
  | null
  | bool (b : Bool)
  | int (n : Int)
  | decimal (spelling : String)
  | str (s : Option String)
  | arr (items : List Json)
  | obj (fields : List (Option String × Json))

namespace Json

instance : Inhabited Json := ⟨null⟩

/-- A string that is a text. -/
def text (s : String) : Json := str (some s)

/-- An object whose keys are texts. -/
def object (fields : List (String × Json)) : Json := obj (fields.map fun f => (some f.1, f.2))

end Json

end LoopNest
