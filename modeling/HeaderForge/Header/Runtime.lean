import HeaderForge.Header.Basic
/-!
# The shared runtime header

The header that generated classes include where they throw, hold shared pointers or are reflected.
Each output directory has its own copy, so guards keep one translation unit that includes several
from declaring anything twice.
-/

namespace HeaderForge

namespace Header

def runtimeIncludes (withReflection : Bool) : List Bytes :=
  block ["#pragma once", [], "#include <memory>"] ++
    block (if withReflection then ["#include <optional>"] else []) ++
    block ["#include <stdexcept>", "#include <string>"] ++
    block (if withReflection then ["#include <tuple>", "#include <type_traits>"] else []) ++
    block ["#include <utility>", [], "#include <nlohmann/json.hpp>", []]

/-- The exceptions that unions and wrappers throw. -/
def runtimeExceptions : List Bytes :=
  ["#ifndef SCHEMAGEN_RUNTIME_CORE",
    "#define SCHEMAGEN_RUNTIME_CORE",
    [],
    "namespace schemagen::rt \x7b",
    [],
    "/// Thrown when a discriminated payload carries a tag no variant is mapped to.",
    "class unknown_variant_tag : public std::runtime_error \x7b",
    "public:",
    "    unknown_variant_tag(const std::string& type, std::string tag)",
    "        : std::runtime_error(type + \": unknown variant tag '\" + tag + \"'\"),",
    "          tag_(std::move(tag)) \x7b\x7d",
    [],
    "    [[nodiscard]] const std::string& tag() const noexcept \x7b return tag_; \x7d",
    [],
    "private:",
    "    std::string tag_;",
    "\x7d;",
    [],
    "/// Thrown when a wrapper is constructed from an absent value.",
    "class null_payload : public std::invalid_argument \x7b",
    "public:",
    "    explicit null_payload(const std::string& type)",
    "        : std::invalid_argument(type + \": payload must not be null\") \x7b\x7d",
    "\x7d;",
    [],
    "\x7d // namespace schemagen::rt",
    []]

/-- The serializer of shared pointers, where an empty one is null. -/
def runtimePointers : List Bytes :=
  ["namespace nlohmann \x7b",
    [],
    "template <typename T> struct adl_serializer<std::shared_ptr<T>> \x7b",
    "    template <typename BasicJsonType>",
    "    static void to_json(BasicJsonType& j, const std::shared_ptr<T>& value) \x7b",
    "        if (value) \x7b",
    "            j = *value;",
    "        \x7d else \x7b",
    "            j = nullptr;",
    "        \x7d",
    "    \x7d",
    [],
    "    template <typename BasicJsonType>",
    "    static void from_json(const BasicJsonType& j, std::shared_ptr<T>& value) \x7b",
    "        if (j.is_null()) \x7b",
    "            value.reset();",
    "        \x7d else \x7b",
    "            value = std::make_shared<T>(j.template get<T>());",
    "        \x7d",
    "    \x7d",
    "\x7d;",
    [],
    "\x7d // namespace nlohmann",
    [],
    "#endif // SCHEMAGEN_RUNTIME_CORE"]

/-- The types that describe the members of a reflected record. -/
def runtimeTraits : List Bytes :=
  [[],
    "#ifndef SCHEMAGEN_RUNTIME_REFLECTION",
    "#define SCHEMAGEN_RUNTIME_REFLECTION",
    [],
    "namespace schemagen::rt \x7b",
    [],
    "template <typename T> struct is_optional : std::false_type \x7b\x7d;",
    "template <typename T> struct is_optional<std::optional<T>> : std::true_type \x7b\x7d;",
    [],
    "template <typename T> struct is_shared : std::false_type \x7b\x7d;",
    "template <typename T> struct is_shared<std::shared_ptr<T>> : std::true_type \x7b\x7d;",
    [],
    "/// One reflected data member: JSON key, member pointer and the required flag.",
    "template <typename Owner, typename Member> struct field \x7b",
    "    const char* key;",
    "    Member Owner::*member;",
    "    bool required;",
    "\x7d;",
    [],
    "template <typename Owner, typename Member>",
    row ["constexpr field<Owner, Member> bind(const char* key, Member Owner::*member, ",
      "bool required) \x7b"],
    "    return \x7bkey, member, required\x7d;",
    "\x7d",
    []]

/-- How one reflected member is written. -/
def runtimePut : List Bytes :=
  ["template <typename BasicJsonType, typename Member>",
    "void put(BasicJsonType& j, const char* key, const Member& value, bool required) \x7b",
    "    if constexpr (is_optional<Member>::value || is_shared<Member>::value) \x7b",
    "        if (value) \x7b",
    "            j[key] = *value;",
    "        \x7d else if (required) \x7b",
    "            j[key] = nullptr;",
    "        \x7d",
    "    \x7d else \x7b",
    "        j[key] = value;",
    "    \x7d",
    "\x7d",
    []]

/-- How one reflected member is read. -/
def runtimeTake : List Bytes :=
  ["template <typename BasicJsonType, typename Member>",
    "void take(const BasicJsonType& j, const char* key, Member& value, bool required) \x7b",
    "    auto it = j.find(key);",
    "    if (it == j.end()) \x7b",
    "        if (required) \x7b",
    "            static_cast<void>(j.at(key)); // throws out_of_range naming the key",
    "        \x7d",
    "        return;",
    "    \x7d",
    "    if constexpr (is_optional<Member>::value) \x7b",
    "        if (it->is_null()) \x7b",
    "            value.reset();",
    "        \x7d else \x7b",
    "            value = it->template get<typename Member::value_type>();",
    "        \x7d",
    "    \x7d else if constexpr (is_shared<Member>::value) \x7b",
    "        using element = typename Member::element_type;",
    "        if (it->is_null()) \x7b",
    "            value.reset();",
    "        \x7d else \x7b",
    "            value = std::make_shared<element>(it->template get<element>());",
    "        \x7d",
    "    \x7d else if constexpr (std::is_same_v<Member, BasicJsonType>) \x7b",
    "        value = *it;",
    "    \x7d else if (required || !it->is_null()) \x7b",
    "        it->get_to(value);",
    "    \x7d",
    "\x7d",
    []]

/-- How a reflected record is written and read. -/
def runtimeReflection : List Bytes :=
  ["template <typename BasicJsonType, typename T>",
    "void reflect_to_json(BasicJsonType& j, const T& value) \x7b",
    "    j = BasicJsonType::object();",
    "    std::apply(",
    row ["        [&](const auto&... f) \x7b ",
      "(put(j, f.key, value.*(f.member), f.required), ...); \x7d,"],
    "        T::schemagen_fields());",
    "\x7d",
    [],
    "template <typename BasicJsonType, typename T>",
    "void reflect_from_json(const BasicJsonType& j, T& value) \x7b",
    "    std::apply(",
    row ["        [&](const auto&... f) \x7b ",
      "(take(j, f.key, value.*(f.member), f.required), ...); \x7d,"],
    "        T::schemagen_fields());",
    "\x7d",
    [],
    "\x7d // namespace schemagen::rt",
    [],
    "#endif // SCHEMAGEN_RUNTIME_REFLECTION"]

/-- The lines of the header, with reflection where a style reads records through it. -/
def runtimeHeader (withReflection : Bool) : List Bytes :=
  runtimeIncludes withReflection ++ runtimeExceptions ++ runtimePointers ++
    if withReflection then runtimeTraits ++ runtimePut ++ runtimeTake ++ runtimeReflection else []

end Header

end HeaderForge
