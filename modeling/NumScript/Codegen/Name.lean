/-!
# NumScript.Codegen.Name

Names of variables in the C text. A source name that means something else there is set apart by a
tag in front: a reserved word or a name of the surrounding text, anything that looks like the symbol
of a function, and, so that no two names become one, anything that starts with the tag already.
-/

namespace NumScript

/-- The keywords of C. -/
def cKeywords : List String :=
  ["auto", "break", "case", "char", "const", "continue", "default", "do", "double", "else",
   "enum", "extern", "float", "for", "goto", "if", "inline", "int", "long", "register",
   "restrict", "return", "short", "signed", "sizeof", "static", "struct", "switch", "typedef",
   "union", "unsigned", "void", "volatile", "while", "_Bool", "_Complex", "_Imaginary",
   "_Alignas", "_Alignof", "_Atomic", "_Generic", "_Noreturn", "_Static_assert", "_Thread_local"]

/-- Names that cannot be used for a variable. -/
def reservedNames : List String :=
  cKeywords ++ ["bool", "true", "false", "NULL", "main", "pow", "printf", "print_number"]

/-- Whether a name looks like the symbol of a function: an `f`, at least one digit and an
underscore. -/
def looksLikeSymbol : List Char → Bool
  | 'f' :: cs =>
    !(cs.takeWhile Char.isDigit).isEmpty && (cs.dropWhile Char.isDigit).head? == some '_'
  | _ => false

/-- Whether a name starts with the tag `v_`. -/
def isTagged : List Char → Bool
  | 'v' :: '_' :: _ => true
  | _ => false

/-- Whether a name has to be set apart. -/
def needsTag (name : String) : Bool :=
  reservedNames.contains name || looksLikeSymbol name.toList || isTagged name.toList

/-- The name of a variable in the C text. -/
def safeName (name : String) : String := if needsTag name then "v_" ++ name else name

end NumScript
