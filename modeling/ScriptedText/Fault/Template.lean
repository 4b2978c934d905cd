/-!
Message templates: text with names in braces, for which values are put in.
-/

namespace ScriptedText.Template

/-- Expands a template from left to right. Outside a placeholder a brace before another brace stands for itself;
inside one (`some name`, reversed) everything up to the closing brace is its name. `none` when a placeholder is
never closed. -/
def expandFrom (value : String → Option String) : Option (List Char) → List Char → Option (List Char)
  | none, [] => some []
  | some _, [] => none
  | none, '\x7b' :: '\x7b' :: rest => (expandFrom value none ('\x7b' :: rest)).map ('\x7b' :: ·)
  | none, '\x7b' :: rest => expandFrom value (some []) rest
  | none, c :: rest => (expandFrom value none rest).map (c :: ·)
  | some name, '\x7d' :: rest =>
    let text := (value (String.ofList name.reverse)).getD ""
    (expandFrom value none rest).map (text.toList ++ ·)
  | some name, c :: rest => expandFrom value (some (c :: name)) rest

def expand (value : String → Option String) (cs : List Char) : Option (List Char) := expandFrom value none cs

/-- The template with its values put in, or as it is when a placeholder is never closed. -/
def render (value : String → Option String) (template : String) : String :=
  match expand value template.toList with
  | some cs => String.ofList cs
  | none => template

example : render (fun _ => some "x") "a\x7b\x7bk\x7d\x7d" = "a\x7bx\x7d" := by decide +kernel
example : render (fun _ => some "x") "\x7bk\x7d \x7bk" = "\x7bk\x7d \x7bk" := by decide +kernel

end ScriptedText.Template
