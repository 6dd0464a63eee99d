import CommandText.Json.Basic

/-!
# Writing JSON

The compact form of a value: no blanks, keys in increasing order and each of them once, and only
the characters escaped that have to be.
-/

namespace CommandText

/-- Floating-point numbers keep a point, and are written with an exponent from `1e+16` on and below
`1e-5`. -/
def JsonNumber.layout : Layout := ⟨some (-5, 15), ['.', '0'], .toEven⟩

def JsonNumber.text : JsonNumber → List Char
  | integer n => intText n
  | float x => layout.write x

namespace Json

def hexChar (n : Nat) : Char := if n < 10 then Char.ofNat (48 + n) else Char.ofNat (87 + n)

def charText (c : Char) : List Char :=
  match c with
  | '"' => ['\\', '"']
  | '\\' => ['\\', '\\']
  | '\x08' => ['\\', 'b']
  | '\x0c' => ['\\', 'f']
  | '\n' => ['\\', 'n']
  | '\r' => ['\\', 'r']
  | '\t' => ['\\', 't']
  | c =>
    if c.toNat < 32 then ['\\', 'u', '0', '0', hexChar (c.toNat / 16), hexChar (c.toNat % 16)]
    else [c]

def quotedText (s : String) : List Char := '"' :: s.toList.flatMap charText ++ ['"']

def joinCommas : List (List Char) → List Char
  | [] => []
  | [a] => a
  | a :: rest => a ++ ',' :: joinCommas rest

/-- Puts a field where its key belongs in increasing order; it replaces one with the same key. -/
def insertField {α : Type} (key : String) (value : α) : List (String × α) → List (String × α)
  | [] => [(key, value)]
  | (k, v) :: rest =>
    if key = k then (key, value) :: rest
    else if key < k then (key, value) :: (k, v) :: rest
    else (k, v) :: insertField key value rest

/-- Fields in increasing order of their keys; the last one of a repeated key is kept. -/
def sortFields {α : Type} (fields : List (String × α)) : List (String × α) :=
  fields.foldl (fun sorted field => insertField field.1 field.2 sorted) []

mutual

/-- The compact form of a value. A number out of range, which is no value, is written as null, and a
string that is no text as an empty one. -/
def compact : Json → List Char
  | null => ['n', 'u', 'l', 'l']
  | bool b => if b then ['t', 'r', 'u', 'e'] else ['f', 'a', 'l', 's', 'e']
  | number l => (l.value?.map JsonNumber.text).getD ['n', 'u', 'l', 'l']
  | string text => quotedText (text.getD "")
  | array items => '[' :: joinCommas (compactItems items) ++ [']']
  | object fields =>
    let texts := sortFields (compactFields fields)
    '\x7b' :: joinCommas (texts.map fun (key, text) => quotedText key ++ ':' :: text) ++ ['\x7d']

def compactItems : List Json → List (List Char)
  | [] => []
  | item :: items => item.compact :: compactItems items

def compactFields : List (JsonText × Json) → List (String × List Char)
  | [] => []
  | (key, value) :: fields => (key.getD "", value.compact) :: compactFields fields

end

end Json

end CommandText
