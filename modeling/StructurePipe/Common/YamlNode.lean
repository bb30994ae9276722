import StructurePipe.Common.Strings

/-!
# YAML nodes

What the program reads of a `YAML::Node`: the entries of a map in the order of the file, which may
repeat a key, and the text of a scalar.
-/

namespace StructurePipe

inductive YamlNode where
  | null
  | scalar (text : Str)
  | sequence (items : List YamlNode)
  | map (entries : List (YamlNode × YamlNode))
deriving Repr

namespace YamlNode

def isMap : YamlNode → Bool
  | .map _ => true
  | _ => false

def isScalar : YamlNode → Bool
  | .scalar _ => true
  | _ => false

/-- `Scalar()`: empty for everything else. -/
def text : YamlNode → Str
  | .scalar text => text
  | _ => []

def entries : YamlNode → List (YamlNode × YamlNode)
  | .map entries => entries
  | _ => []

/-- `node[key]`: the first entry of the key.  For a key that is missing the library hands out an
invalid node and throws when it is asked what it is; here it is a node that is not a scalar. -/
def get (node : YamlNode) (key : Str) : YamlNode :=
  ((node.entries.find? fun e => e.1.isScalar && e.1.text == key).map Prod.snd).getD .null

end YamlNode

end StructurePipe
