import HeaderForge.Header.Basic
/-!
# Declarations that all styles share

Enumerations, aliases, dynamic wrappers, tagged unions and serializers look the same in every style;
only records differ.
-/

namespace HeaderForge

namespace Header

/-! ## Enumerations and aliases -/

/-- A literal as a JSON value. -/
def jsonLiteral (isString : Bool) (text : Bytes) : Bytes :=
  if isString then Naming.literal text else text

def enumConversions (d : EnumDef) : List Bytes :=
  [[], row ["NLOHMANN_JSON_SERIALIZE_ENUM(", d.name, ", \x7b"]] ++
    d.members.map (fun m =>
      row ["    \x7b", d.name, "::", m.name, ", ", jsonLiteral m.isString m.literal, "\x7d,"]) ++
    block ["\x7d)", [], row ["inline std::string_view to_string(", d.name, " value) noexcept \x7b"],
      "    switch (value) \x7b"] ++
    d.members.flatMap (fun m =>
      [row ["    case ", d.name, "::", m.name, ":"],
        row ["        return ", Naming.literal m.literal, ";"]]) ++
    block ["    \x7d", "    return \x7b\x7d;", "\x7d"]

/-- An enumeration and, where it has members, its conversions. -/
def enumeration (ctx : RenderContext) (d : EnumDef) : List Bytes :=
  docsFor ctx d.description [] ++ [row ["enum class ", d.name, " \x7b"]] ++
    d.members.map (fun m => row ["    ", m.name, ","]) ++ [bytes "\x7d;"] ++
    if d.members.isEmpty then [] else enumConversions d

def aliasLines (c : ClassModel) (type : TypeRef) : List Bytes :=
  [row ["using ", c.name, " = ", type.spell, ";"]]

/-! ## Dynamic wrappers -/

/-- A class that holds any JSON value but null. -/
def wrapper (c : ClassModel) : List Bytes :=
  [row ["class ", c.name, " \x7b"],
    "public:",
    "    // Holds null until assigned from a decoded or constructed value.",
    row ["    ", c.name, "() = default;"],
    [],
    row ["    explicit ", c.name, "(nlohmann::json value) : value_(std::move(value)) \x7b"],
    "        if (value_.is_null()) \x7b",
    row ["            throw schemagen::rt::null_payload(\"", c.name, "\");"],
    "        \x7d",
    "    \x7d",
    [],
    "    [[nodiscard]] const nlohmann::json& value() const noexcept \x7b return value_; \x7d",
    [],
    "    template <typename T> [[nodiscard]] T as() const \x7b return value_.get<T>(); \x7d",
    [],
    row ["    template <typename BasicJsonType> static ", c.name,
      " decode(const BasicJsonType& j) \x7b"],
    row ["        return ", c.name, "(nlohmann::json(j));"],
    "    \x7d",
    [],
    row ["    template <typename BasicJsonType> void encode(BasicJsonType& j) const ",
      "\x7b j = value_; \x7d"],
    [],
    "private:",
    "    nlohmann::json value_;",
    "\x7d;"]

/-! ## Tagged unions -/

/-- The member that holds a variant. -/
def slotType (v : UnionVariant) : Bytes :=
  if v.type.isPointer then v.type.spell else row ["std::optional<", v.type.spell, ">"]

/-- The name of the handler type of a variant. -/
def handlerType (v : UnionVariant) : Bytes := row ["On", Naming.pascalCase v.slot]

def unionConstructor (c : ClassModel) (v : UnionVariant) : List Bytes :=
  [row ["    static ", c.name, " from_", v.slot, "(", v.type.spell, " value) \x7b"],
    row ["        ", c.name, " u(", Naming.literal v.tag, ");"],
    row ["        u.", v.slot, "_ = std::move(value);"],
    "        return u;",
    "    \x7d"]

def unionAccessor (v : UnionVariant) : Bytes :=
  row ["    [[nodiscard]] const ", slotType v, "& ", v.slot, "() const noexcept \x7b return ",
    v.slot, "_; \x7d"]

/-- The call of the handler of a variant. -/
def handlerCall (v : UnionVariant) : Bytes :=
  row ["std::forward<", handlerType v, ">(on_", v.slot, ")(*", v.slot, "_)"]

/-- The branches of `match`: the last variant needs no test. -/
def matchBranches : List UnionVariant → List Bytes
  | [] => []
  | [last] => [row ["        return ", handlerCall last, ";"]]
  | v :: rest =>
    [row ["        if (", v.slot, "_) \x7b"],
      row ["            return ", handlerCall v, ";"],
      bytes "        \x7d"] ++ matchBranches rest

/-- One handler for each variant, and no default. -/
def unionMatch (c : ClassModel) (variants : List UnionVariant) : List Bytes :=
  block [row ["    template <",
      Bytes.join ", " (variants.map fun v => row ["typename ", handlerType v]), ">"],
    row ["    decltype(auto) match(",
      Bytes.join ", " (variants.map fun v => row [handlerType v, "&& on_", v.slot]),
      ") const \x7b"],
    "        if (tag_.empty()) \x7b",
    row ["            throw schemagen::rt::unknown_variant_tag(\"", c.name, "\", tag_);"],
    "        \x7d"] ++
    matchBranches variants ++ block ["    \x7d", []]

def tagExpr (v : UnionVariant) : Bytes := jsonLiteral v.tagIsString v.tag

/-- The test for a variant. Tags that are not all strings are compared as JSON values. -/
def tagTest (stringTags : Bool) (v : UnionVariant) : Bytes :=
  if stringTags then row ["        if (tag == ", Naming.literal v.tag, ") \x7b"]
  else row ["        if (tag_value == BasicJsonType(", tagExpr v, ")) \x7b"]

def decodeVariant (stringTags : Bool) (v : UnionVariant) : List Bytes :=
  [tagTest stringTags v,
    if v.type.isPointer then
      row ["            return from_", v.slot, "(std::make_shared<", v.type.name,
        ">(j.template get<", v.type.name, ">()));"]
    else
      row ["            return from_", v.slot, "(j.template get<", v.type.name, ">());"],
    "        \x7d"]

/-- How the tag is read. The error message carries the text of one that is no string. -/
def readTag (stringTags : Bool) (tagKey : Bytes) : List Bytes :=
  if stringTags then
    [row ["        const auto tag = j.at(", tagKey, ").template get<std::string>();"]]
  else
    [row ["        const auto& tag_value = j.at(", tagKey, ");"],
      "        const std::string tag = tag_value.is_string()",
      "                                    ? tag_value.template get<std::string>()",
      "                                    : tag_value.dump();"]

def unionDecode (c : ClassModel) (stringTags : Bool) (tagKey : Bytes)
    (variants : List UnionVariant) : List Bytes :=
  [row ["    template <typename BasicJsonType> static ", c.name,
      " decode(const BasicJsonType& j) \x7b"]] ++
    readTag stringTags tagKey ++ variants.flatMap (decodeVariant stringTags) ++
    block [row ["        throw schemagen::rt::unknown_variant_tag(\"", c.name, "\", tag);"],
      "    \x7d",
      []]

/-- The handler that writes a variant. -/
def encodeVariant (stringTags : Bool) (tagKey : Bytes) (v : UnionVariant) : Bytes :=
  row ["[&](const ", v.type.name, "& v) \x7b j = v;",
    if stringTags then [] else row [" j[", tagKey, "] = ", tagExpr v, ";"], " \x7d"]

def unionEncode (stringTags : Bool) (tagKey : Bytes) (variants : List UnionVariant) : List Bytes :=
  [bytes "    template <typename BasicJsonType> void encode(BasicJsonType& j) const \x7b",
    row ["        match(",
      Bytes.join ",\n              " (variants.map (encodeVariant stringTags tagKey)), ");"]] ++
    (if stringTags then [row ["        j[", tagKey, "] = tag_;"]] else []) ++ block ["    \x7d", []]

/-- A class with one optional slot for each variant, of which the tag selects one. -/
def taggedUnion (c : ClassModel) (u : UnionModel) : List Bytes :=
  let tagKey := Naming.literal u.tagProperty
  let stringTags := u.variants.all UnionVariant.tagIsString
  block [row ["class ", c.name, " \x7b"],
    "public:",
    "    // No variant is populated until assigned from a named constructor or decode.",
    row ["    ", c.name, "() = default;"],
    []] ++
    u.variants.flatMap (unionConstructor c) ++
    block [[],
      "    [[nodiscard]] const std::string& tag() const noexcept \x7b return tag_; \x7d"] ++
    u.variants.map unionAccessor ++ [[]] ++
    unionMatch c u.variants ++ unionDecode c stringTags tagKey u.variants ++
    unionEncode stringTags tagKey u.variants ++
    block ["private:",
      row ["    explicit ", c.name, "(std::string tag) : tag_(std::move(tag)) \x7b\x7d"],
      [],
      "    std::string tag_;"] ++
    u.variants.map (fun v => row ["    ", slotType v, " ", v.slot, "_;"]) ++ [bytes "\x7d;"]

/-! ## Serializers -/

/-- The serializer of a class that converts by `decode` and `encode`. -/
def serializer (ctx : RenderContext) (c : ClassModel) : List Bytes :=
  let type := ctx.qualified c.name
  ["namespace nlohmann \x7b",
    [],
    row ["template <> struct adl_serializer<", type, "> \x7b"],
    "    template <typename BasicJsonType>",
    row ["    static void from_json(const BasicJsonType& j, ", type, "& value) \x7b"],
    row ["        value = ", type, "::decode(j);"],
    "    \x7d",
    [],
    "    template <typename BasicJsonType>",
    row ["    static void to_json(BasicJsonType& j, const ", type, "& value) \x7b"],
    "        value.encode(j);",
    "    \x7d",
    "\x7d;",
    [],
    "\x7d // namespace nlohmann"]

end Header

end HeaderForge
