import HostBridge.Catalog.Types

namespace HostBridge.Catalog
variable {Native World : Type}

/-- The member of a sort with the given name. Operators are named by the key of their event. -/
def probeMember? (sort name : String) : Option (Member (embedding Native World) Tag.probe) :=
  match sort with
  | "name" => some (.named name)
  | "field" => some (field name .number id fun _ x => x)
  | "field_bool" => some (field name .boolean (fun _ => true) fun p _ => p)
  | "field_readonly" => some (readOnly name .number id)
  | "field_writeonly" => some (writeOnly name .number fun _ x => x)
  | "method" => some (method name .unit (.one .number) fun p _ => return (p, ()))
  | "method2" =>
    let pair : Params Tag := .tuple [.number, .number]
    some (method name pair pair fun _ x => return x)
  | "method_mut" => some (mutMethod name (.one .number) .unit fun _ => return ())
  | "function" => some (function name (.one .boolean) (.one .boolean) fun x => return x)
  | "operator" => (Event.ofKey? name).map fun e => binary e .number fun p _ => return p
  | "unary_operator" => (Event.ofKey? name).map fun e => unary e .boolean fun _ => return true
  | "finalizer" => some (.finalizer fun _ w => (w, .ok ()))
  | _ => none

end HostBridge.Catalog
