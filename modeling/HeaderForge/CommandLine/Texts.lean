import HeaderForge.Bytes
/-!
# Texts of the command line

The usage and the examples.
-/

namespace HeaderForge

namespace CommandLine

def usageLines : List Bytes :=
  ["schemagen: model code generator for OpenAPI / Swagger schemas",
    "",
    "Usage:",
    "  schemagen generate -i <spec> [-o <out_dir>] [options]",
    "  schemagen lint -i <spec> [--config <file>]",
    "  schemagen styles",
    "  schemagen examples",
    "",
    "Options:",
    "  -i, --input <file|url>     API description (JSON/YAML), an http(s):// or file:// URL,",
    "                             or - for stdin",
    "  -o, --output <dir>         Output directory (default: generated)",
    "  --style <name>             Emission backend: plain,reflective,builder (default: plain)",
    "  --project-dir <dir>        Project root holding the cache and config (default: .)",
    "  --config <file>            Configuration file (default: schemagen.yaml in the project dir)",
    "  --namespace <ns>           Namespace of the generated types (default: models)",
    "  --force                    Regenerate every schema regardless of the cache",
    "  --verbose                  Log flattening, cycle reuse and cache decisions",
    "  --quiet                    Print errors only",
    "  -h, --help                 Show this help"].map bytes

def usage : Bytes := Bytes.unlines usageLines

def exampleLines : List Bytes :=
  ["schemagen examples:",
    "",
    "  # Generate plain aggregates into src/models",
    "  schemagen generate -i api/openapi.yaml -o src/models",
    "",
    "  # Immutable classes with builders, everything rewritten",
    "  schemagen generate -i api/openapi.yaml -o src/models --style builder --force",
    "",
    "  # Spec piped from another tool",
    "  curl -s https://example.com/openapi.json | schemagen generate -i - -o gen",
    "",
    "  # Heuristic checks only",
    "  schemagen lint -i api/openapi.yaml"].map bytes

def examples : Bytes := Bytes.unlines exampleLines

end CommandLine

end HeaderForge
