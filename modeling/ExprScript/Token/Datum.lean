import ExprScript.Text.Quoted
import ExprScript.Value

namespace ExprScript

mutual

/-- What a token carries beside its lexeme. A reader of text puts a value there. A caller who makes
tokens by hand may also put whole numbers, lists and records, which are no values. -/
inductive Datum where
  | value (v : Value)
  | whole (n : Int)
  | list (items : Data)
  | record (fields : Fields)
deriving DecidableEq

inductive Data where
  | nil
  | cons (item : Datum) (rest : Data)
deriving DecidableEq

inductive Fields where
  | nil
  | cons (name : String) (item : Datum) (rest : Fields)
deriving DecidableEq

end

inductive DatumError where
  | notAValue (written : String)
  | tooLarge
deriving DecidableEq, Repr

def DatumError.message : DatumError → String
  | .notAValue written => written ++ " is not a rox value"
  | .tooLarge => "int too large to convert to float"

/-- The written form of a value in a list of tokens and in errors about data. -/
def Value.written : Value → String
  | .nil => "None"
  | .bool true => "True"
  | .bool false => "False"
  | .number x => String.ofList (Number.write .detailed x)
  | .text s => Text.quoted s

mutual

def Datum.written : Datum → String
  | .value v => v.written
  | .whole n => toString n
  | .list items => "[" ++ items.written ++ "]"
  | .record fields => "\x7b" ++ fields.written ++ "\x7d"

def Data.written : Data → String
  | .nil => ""
  | .cons item .nil => item.written
  | .cons item (.cons next rest) => item.written ++ ", " ++ (Data.cons next rest).written

def Fields.written : Fields → String
  | .nil => ""
  | .cons name item .nil => Text.quoted name ++ ": " ++ item.written
  | .cons name item (.cons next other rest) =>
    Text.quoted name ++ ": " ++ item.written ++ ", " ++ (Fields.cons next other rest).written

end

namespace Datum

/-- The datum of a token that carries nothing. -/
def nil : Datum := .value .nil

instance : Inhabited Datum := ⟨nil⟩

/-- The value of a datum. A whole number becomes the nearest number. -/
def value? (d : Datum) : Except DatumError Value :=
  match d with
  | .value v => .ok v
  | .whole n => match Number.ofInt? n with
    | some x => .ok (.number x)
    | none => .error .tooLarge
  | .list _ | .record _ => .error (.notAValue d.written)

/-- The text of a datum in a list of tokens: its written form, but a text by itself without
quotes. -/
def describe : Datum → String
  | .value (.text s) => s
  | d => d.written

end Datum

end ExprScript
