/-!
# JSON

Values of the JSON language.  Numbers are kept as they are written.
-/

namespace MiniPascal

mutual

inductive JsonValue where
  | null
  | bool (value : Bool)
  | number (text : String)
  | text (value : String)
  | array (elements : List JsonValue)
  | object (fields : List JsonField)

inductive JsonField where
  | mk (name : String) (value : JsonValue)

end

namespace JsonValue

def int (n : Int) : JsonValue := number (toString n)

end JsonValue

end MiniPascal
