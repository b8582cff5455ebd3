import HeaderForge.Header.Fields
/-!
# Records in the three styles

1. `plainRecord` is an aggregate with serializers that treat each field.
2. `reflectiveRecord` is an aggregate with a table of its fields that the runtime reads.
3. `builderRecord` is an immutable class with accessors and a nested builder.
-/

namespace HeaderForge

namespace Header

/-- Lines followed by an empty one, where there are any. -/
def spaced (lines : List Bytes) : List Bytes := if lines.isEmpty then [] else lines ++ [[]]

/-- An empty line where a record has fields. -/
def gap (c : ClassModel) : List Bytes := if c.fields.isEmpty then [] else [[]]

/-! ## Plain -/

def plainEncoder (c : ClassModel) (flavor : JsonFlavor) : List Bytes :=
  [row [flavor.head, "void to_json(", flavor.json, "& j, const ", c.name,
      if c.fields.isEmpty then "& /*value*/) \x7b" else "& value) \x7b"],
    row ["    j = ", flavor.json, "::object();"]] ++
    c.fields.flatMap (fun f => encodeField c f (row ["value.", f.name]) "    ") ++
    block ["\x7d", []]

def plainDecoder (c : ClassModel) (flavor : JsonFlavor) : List Bytes :=
  if c.fields.isEmpty then
    [row [flavor.head, "void from_json(const ", flavor.json, "& /*j*/, ", c.name,
      "& /*value*/) \x7b\x7d"]]
  else
    [row [flavor.head, "void from_json(const ", flavor.json, "& j, ", c.name, "& value) \x7b"]] ++
      c.fields.flatMap (fun f => decodeField c f (row ["value.", f.name]) flavor "    ") ++
      block ["\x7d"]

def plainRecord (ctx : RenderContext) (c : ClassModel) : List Bytes :=
  let flavor : JsonFlavor := ⟨c.hasIndirectDependency⟩
  [row ["struct ", c.name, " \x7b"]] ++ spaced (jsonKeys c "    ") ++ dataMembers ctx c [] true ++
    block ["\x7d;", []] ++ plainEncoder c flavor ++ plainDecoder c flavor

/-! ## Reflective -/

/-- The entry of a field in the table of its record. -/
def bindField (c : ClassModel) (f : Field) : Bytes :=
  row ["            schemagen::rt::bind(", keyExpr c f, ", &", c.name, "::", f.name, ", ",
    if f.required then "true" else "false", ")"]

def fieldTable (c : ClassModel) : List Bytes :=
  if c.fields.isEmpty then block ["        return std::make_tuple();"]
  else
    block ["        return std::make_tuple(",
      row [Bytes.join ",\n" (c.fields.map (bindField c)), ");"]]

def reflectiveRecord (ctx : RenderContext) (c : ClassModel) : List Bytes :=
  [row ["struct ", c.name, " \x7b"]] ++ spaced (jsonKeys c "    ") ++ dataMembers ctx c [] true ++
    gap c ++ block ["    static constexpr auto schemagen_fields() \x7b"] ++ fieldTable c ++
    block ["    \x7d",
      "\x7d;",
      [],
      "template <typename BasicJsonType>",
      row ["void to_json(BasicJsonType& j, const ", c.name, "& value) \x7b"],
      "    schemagen::rt::reflect_to_json(j, value);",
      "\x7d",
      [],
      "template <typename BasicJsonType>",
      row ["void from_json(const BasicJsonType& j, ", c.name, "& value) \x7b"],
      "    schemagen::rt::reflect_from_json(j, value);",
      "\x7d"]

/-! ## Builder -/

def accessor (ctx : RenderContext) (f : Field) : List Bytes :=
  let type := f.type.spellNullable f.nullable
  memberComments ctx f ++
    [if returnsByValue f then
      row ["    [[nodiscard]] ", type, " ", f.name, "() const noexcept \x7b return ", f.name,
        "_; \x7d"]
    else
      row ["    [[nodiscard]] const ", type, "& ", f.name, "() const noexcept \x7b return ", f.name,
        "_; \x7d"]]

def builderDecode (c : ClassModel) : List Bytes :=
  [row ["    template <typename BasicJsonType> static ", c.name,
      " decode(const BasicJsonType& j) \x7b"],
    row ["        ", c.name, " value;"]] ++
    c.fields.flatMap (fun f =>
      decodeField c f (row ["value.", f.name, "_"]) ⟨true⟩ "        ") ++
    block (if c.fields.isEmpty then ["        static_cast<void>(j);"] else []) ++
    block ["        return value;", "    \x7d", []]

def builderEncode (c : ClassModel) : List Bytes :=
  block ["    template <typename BasicJsonType> void encode(BasicJsonType& j) const \x7b",
    "        j = BasicJsonType::object();"] ++
    c.fields.flatMap (fun f => encodeField c f (row [f.name, "_"]) "        ") ++
    block ["    \x7d", []]

def setter (f : Field) : List Bytes :=
  [row ["    builder& ", f.name, "(", f.type.spellNullable f.nullable, " value) \x7b"],
    row ["        value_.", f.name, "_ = std::move(value);"],
    "        return *this;",
    "    \x7d"]

/-- The nested class that changes copies. -/
def builderClass (c : ClassModel) : List Bytes :=
  block [row ["class ", c.name, "::builder \x7b"], "public:", "    builder() = default;", []] ++
    c.fields.flatMap setter ++ gap c ++
    block [row ["    [[nodiscard]] ", c.name, " build() const \x7b return value_; \x7d"],
      [],
      "private:",
      row ["    friend class ", c.name, ";"],
      [],
      row ["    explicit builder(", c.name, " value) : value_(std::move(value)) \x7b\x7d"],
      [],
      row ["    ", c.name, " value_;"],
      "\x7d;",
      [],
      row ["inline ", c.name, "::builder ", c.name, "::to_builder() const \x7b"],
      "    return builder(*this);",
      "\x7d"]

def builderRecord (ctx : RenderContext) (c : ClassModel) : List Bytes :=
  block [row ["class ", c.name, " \x7b"], "public:", "    class builder;", []] ++
    spaced (jsonKeys c "    ") ++ block [row ["    ", c.name, "() = default;"], []] ++
    c.fields.flatMap (accessor ctx) ++ gap c ++
    block ["    [[nodiscard]] builder to_builder() const;", []] ++
    builderDecode c ++ builderEncode c ++
    block ["private:", "    friend class builder;"] ++ gap c ++
    dataMembers ctx c "_" false ++ block ["\x7d;", []] ++ builderClass c

end Header

end HeaderForge
