/-!
# Layout of composite texts

Texts of lists, tables and records, on one line or spread over lines.  Spread out, each part has a
line of its own, indented by four spaces and ended by a comma; parts of several lines are indented
as a whole.

* `Layout.block`    parts between two marks;
* `Layout.table`    keys and values between braces;
* `Layout.record`   a record with one field.
-/

namespace LiveOrder.Text.Layout

/-- Every line of a text moved four places to the right. -/
def indent (s : String) : String :=
  String.ofList ("    ".toList ++ s.toList.flatMap fun c =>
    if c = '\n' then '\n' :: "    ".toList else [c])

def block (spread : Bool) (before after : String) (parts : List String) : String :=
  if spread && !parts.isEmpty then
    before ++ "\n" ++ String.join (parts.map fun s => indent s ++ ",\n") ++ after
  else before ++ String.intercalate ", " parts ++ after

def braces (spread : Bool) (parts : List String) : String := block spread "\x7b" "\x7d" parts

def table (spread : Bool) (entries : List (String × String)) : String :=
  braces spread (entries.map fun (k, v) => k ++ ": " ++ v)

def record (spread : Bool) (name field value : String) : String :=
  if spread then block true (name ++ " \x7b") "\x7d" [field ++ ": " ++ value]
  else block false (name ++ " \x7b ") " \x7d" [field ++ ": " ++ value]

end LiveOrder.Text.Layout
