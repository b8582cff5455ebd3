import HeaderForge.Header.Basic
/-!
# Fields in code

How the fields of a record are declared, written to JSON and read from it. How a field is stored
decides the rest: by value, as an optional, as a shared pointer or as a JSON value.
-/

namespace HeaderForge

namespace Header

/-- Serializers of a class that reaches a forward-declared one are function templates over the JSON
type, so that their bodies are checked only once every class is complete. -/
structure JsonFlavor where
  templated : Bool

namespace JsonFlavor

def json (f : JsonFlavor) : Bytes := if f.templated then "BasicJsonType" else "nlohmann::json"

/-- What a serializer starts with. -/
def head (f : JsonFlavor) : Bytes :=
  if f.templated then "template <typename BasicJsonType>\n" else "inline "

/-- The expression that reads a type from an object. The object ends in its access operator. -/
def get (f : JsonFlavor) (object type : Bytes) : Bytes :=
  row [object, if f.templated then "template get<" else "get<", type, ">()"]

end JsonFlavor

inductive Storage where
  | value
  | optional
  | pointer
  | json
deriving DecidableEq, Repr

def storageOf (f : Field) : Storage :=
  if f.type.isPointer then .pointer
  else
    match f.type.kind with
    | .any => .json
    | _ => if f.nullable then .optional else .value

/-- The key of a field: a literal, or a constant of the class. -/
def keyExpr (c : ClassModel) (f : Field) : Bytes :=
  if c.useJsonKey then row [c.name, "::json_keys::", f.name] else Naming.literal f.key

/-- The constants for the keys of a class, where it has any. -/
def jsonKeys (c : ClassModel) (indent : Bytes) : List Bytes :=
  if !c.useJsonKey || c.fields.isEmpty then []
  else
    row [indent, "struct json_keys \x7b"] ::
      c.fields.map (fun f =>
        row [indent, "    static constexpr const char* ", f.name, " = ", Naming.literal f.key, ";"])
      ++ [row [indent, "\x7d;"]]

/-- What a member is initialized with where its type would leave it undefined. -/
def defaultInitializer (f : Field) : Bytes :=
  if f.nullable then []
  else
    match f.type.kind with
    | .integer | .number | .boolean | .enumeration | .custom => "\x7b\x7d"
    | .named => if f.type.indirect then [] else "\x7b\x7d"
    | .string | .any | .list | .map => []

/-- Whether an accessor returns a copy. -/
def returnsByValue (f : Field) : Bool :=
  !f.nullable &&
    match f.type.kind with
    | .integer | .number | .boolean | .enumeration => true
    | _ => false

/-- The comments above a member. -/
def memberComments (ctx : RenderContext) (f : Field) : List Bytes :=
  docsFor ctx f.description "    " ++ if f.deprecated then [bytes "    // Deprecated."] else []

def dataMember (endsWith : Bytes) (f : Field) : Bytes :=
  row ["    ", f.type.spellNullable f.nullable, " ", f.name, endsWith, defaultInitializer f, ";"]

/-- The data members of a record, each identifier ended by the given text. -/
def dataMembers (ctx : RenderContext) (c : ClassModel) (endsWith : Bytes) (withDocs : Bool) :
    List Bytes :=
  c.fields.flatMap fun f =>
    (if withDocs then memberComments ctx f else []) ++ [dataMember endsWith f]

/-- Statements that write a value of the field into `j`. -/
def encodeField (c : ClassModel) (f : Field) (value indent : Bytes) : List Bytes :=
  let key := keyExpr c f
  match storageOf f with
  | .value => [row [indent, "j[", key, "] = ", value, ";"]]
  | .optional | .pointer =>
    [row [indent, "if (", value, ") \x7b"], row [indent, "    j[", key, "] = *", value, ";"]] ++
      (if f.required then
        [row [indent, "\x7d else \x7b"], row [indent, "    j[", key, "] = nullptr;"]]
      else []) ++ [row [indent, "\x7d"]]
  | .json =>
    if f.required then [row [indent, "j[", key, "] = ", value, ";"]]
    else
      [row [indent, "if (!", value, ".is_null()) \x7b"],
        row [indent, "    j[", key, "] = ", value, ";"], row [indent, "\x7d"]]

/-- The statement that reads a value from an element of `j` that is there and not null. -/
def decodeElement (f : Field) (target element : Bytes) (flavor : JsonFlavor) : Bytes :=
  match storageOf f with
  | .value => row [element, "get_to(", target, ");"]
  | .optional => row [target, " = ", flavor.get element f.type.spell, ";"]
  | .pointer =>
    row [target, " = std::make_shared<", f.type.name, ">(", flavor.get element f.type.name, ");"]
  | .json => row [target, " = ", element, ";"]

/-- Statements that read a value of the field from `j`. -/
def decodeField (c : ClassModel) (f : Field) (target : Bytes) (flavor : JsonFlavor)
    (indent : Bytes) : List Bytes :=
  let key := keyExpr c f
  match storageOf f, f.required with
  | .json, true => [row [indent, target, " = j.at(", key, ");"]]
  | .json, false =>
    [row [indent, "if (auto it = j.find(", key, "); it != j.end()) \x7b"],
      row [indent, "    ", target, " = *it;"], row [indent, "\x7d"]]
  | .value, true => [row [indent, "j.at(", key, ").get_to(", target, ");"]]
  | _, true =>
    [row [indent, "if (const auto& e = j.at(", key, "); !e.is_null()) \x7b"],
      row [indent, "    ", decodeElement f target "e." flavor], row [indent, "\x7d"]]
  | _, false =>
    [row [indent, "if (auto it = j.find(", key, "); it != j.end() && !it->is_null()) \x7b"],
      row [indent, "    ", decodeElement f target "it->" flavor], row [indent, "\x7d"]]

end Header

end HeaderForge
