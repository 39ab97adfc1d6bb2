import Grafast.Text.Envelope

namespace Grafast.GlobalId

open Text

-- What is given as an id: a string, or a value of another type.
inductive Given (O : Type)
  | str (s : Str)
  | other (value : O)

-- The texts that an interpreter gives for values of other types.
structure Python (O E : Type) extends Runtime where
  repr     : O → Except (Raised E) String
  typeName : O → String

variable {O E : Type}

-- The parts are those that JSON has.
def encodeGlobalId (python : Python O E) (typename : Str) (idParts : List Json.Native) : Except (Raised E) Str :=
  if idParts.isEmpty then
    .error (.valueError ("cannot encode a global id for " ++ python.reprStr typename ++ " with no id parts"))
  else
    encodeBody python.toRuntime Base64.urlSafe (.str typename :: idParts)

def decodePayload (repr : String) (payload : Json) : Except (Raised E) (Str × List Json) :=
  match payload with
  | .array (first :: part :: parts) =>
    match first with
    | .str typename => .ok (typename, part :: parts)
    | _             => .error (malformed "global id" repr "typename is not a string")
  | _ => .error (malformed "global id" repr "expected [typename, id, ...]")

def decodeGlobalId (python : Python O E) : Given O → Except (Raised E) (Str × List Json)
  | .other value  =>
    match python.repr value with
    | .error error => .error error
    | .ok repr     => .error (malformed "global id" repr ("expected a string, got " ++ python.typeName value))
  | .str globalId =>
    match decodeBody python.toRuntime Base64.urlSafe "global id" globalId with
    | .error error => .error error
    | .ok payload  => decodePayload (python.reprStr globalId) payload

-- An entry of the ids of a node step: an exception of an earlier step, or a value.
inductive IdEntry (O E : Type)
  | exception (error : E)
  | value (globalId : Given O)

-- A single part is a key by itself.
inductive Key
  | single (part : Json)
  | composite (parts : List Json)

def keyOf : List Json → Key
  | [part] => .single part
  | parts  => .composite parts

-- Why an entry has no key.
inductive EntryError (E : Type)
  | upstream (error : E)
  | malformed (text : String)
  | noLoader (text : String)

-- The key of an entry with its type, or the error of the entry alone. Only a `ValueError` of the decoding is caught.
def decodeEntry (python : Python O E) (loaders : List Str) :
    IdEntry O E → Except (Raised E) (Except (EntryError E) (Str × Key))
  | .exception error => .ok (.error (.upstream error))
  | .value globalId  =>
    match decodeGlobalId python globalId with
    | .error (.valueError text)  => .ok (.error (.malformed text))
    | .error error               => .error error
    | .ok (typename, idParts) =>
      if loaders.contains typename then .ok (.ok (typename, keyOf idParts))
      else .ok (.error (.noLoader ("node(id): no loader registered for type " ++ python.reprStr typename)))

-- The walk over the ids of a node step. What is not caught of one entry ends it.
def decodeEntries (python : Python O E) (loaders : List Str) :
    List (IdEntry O E) → Except (Raised E) (List (Except (EntryError E) (Str × Key)))
  | []          => .ok []
  | id :: ids =>
    match decodeEntry python loaders id with
    | .error error => .error error
    | .ok entry    =>
      match decodeEntries python loaders ids with
      | .error error => .error error
      | .ok entries  => .ok (entry :: entries)

end Grafast.GlobalId
