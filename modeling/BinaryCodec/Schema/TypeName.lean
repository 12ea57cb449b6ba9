import BinaryCodec.Schema.Registry

namespace BinaryCodec

def KeyOrder.setName : KeyOrder → String
  | .sorted => "alloc::collections::btree::set::BTreeSet"
  | .hashed => "std::collections::hash::set::HashSet"
  | .insertion => "indexmap::set::IndexSet"

def KeyOrder.mapName : KeyOrder → String
  | .sorted => "alloc::collections::btree::map::BTreeMap"
  | .hashed => "std::collections::hash::map::HashMap"
  | .insertion => "indexmap::map::IndexMap"

def PointerKind.typeName : PointerKind → String
  | .box => "alloc::boxed::Box"
  | .rc => "alloc::rc::Rc"
  | .arc => "alloc::sync::Arc"

namespace Schema

mutual

def typeName (registry : Registry) : Schema → String
  | .unit => "()"
  | .phantom target => "core::marker::PhantomData<" ++ target.typeName registry ++ ">"
  | .bool => "bool"
  | .integer type => type.name
  | .fixed _ type => type.name
  | .float _ type => type.name
  | .char => "char"
  | .string | .fixedString _ | .cstring => "alloc::string::String"
  | .bytes => "alloc::vec::Vec<u8>"
  | .uuid => "uuid::Uuid"
  | .time | .date => "chrono::datetime::DateTime<chrono::offset::utc::Utc>"
  | .unsupported target => target.typeName registry
  | .sequence .vector item => "alloc::vec::Vec<" ++ item.typeName registry ++ ">"
  | .sequence .deque item =>
    "alloc::collections::vec_deque::VecDeque<" ++ item.typeName registry ++ ">"
  | .sequence .slice item => "[" ++ item.typeName registry ++ "]"
  | .array count item => "[" ++ item.typeName registry ++ "; " ++ toString count ++ "]"
  | .set order item => order.setName ++ "<" ++ item.typeName registry ++ ">"
  | .map order key value =>
    order.mapName ++ "<" ++ key.typeName registry ++ ", " ++ value.typeName registry ++ ">"
  | .pointer kind target => kind.typeName ++ "<" ++ target.typeName registry ++ ">"
  | .option item => "core::option::Option<" ++ item.typeName registry ++ ">"
  | .tuple [item] => "(" ++ item.typeName registry ++ ",)"
  | .tuple items => "(" ++ ", ".intercalate (typeNames registry items) ++ ")"
  | .named name => ((registry.lookup name).map Declaration.title).getD name

def typeNames (registry : Registry) : List Schema → List String
  | [] => []
  | item :: rest => item.typeName registry :: typeNames registry rest

end

end Schema

end BinaryCodec
