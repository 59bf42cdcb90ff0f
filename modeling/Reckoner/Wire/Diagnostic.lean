import Reckoner.Wire.Basic
import Reckoner.Diagnostic

/-! Diagnostics and their parts as JSON. A diagnostic is tagged by its kind among its fields. -/
namespace Reckoner
open Wire

instance : Wire Span where
  codec := Serialization.record (.required "start" codec <| .required "end" codec .nil)
    (fun s => (s.start, s.stop, ())) fun (start, stop, _) => ⟨start, stop⟩

namespace Diagnostic

instance : Wire Code where
  codec := Serialization.newtype codec Code.mk Code.number

instance : Wire Kind where
  codec := Serialization.units Kind.all Kind.tag

/-- The fields of the diagnostics of a kind. -/
def Part : Kind → Type
  | .malformed => Code × String × Span × Unit
  | .disallowedConstruct => String × Span × Unit
  | .nameNotAllowed => String × Span × Unit
  | .divisionByZero => Unit
  | .evaluation => Code × String × Unit

def fields [Serialization] : (kind : Kind) → Fields (Part kind)
  | .malformed => .required "code" codec <| .required "message" codec <| .required "span" codec .nil
  | .disallowedConstruct => .required "construct" codec <| .required "span" codec .nil
  | .nameNotAllowed => .required "name" codec <| .required "span" codec .nil
  | .divisionByZero => .nil
  | .evaluation => .required "code" codec <| .required "message" codec .nil

def split : (d : Diagnostic) → Part d.kind
  | .malformed code message span => (code, message, span, ())
  | .disallowed construct span => (construct, span, ())
  | .nameNotAllowed name span => (name, span, ())
  | .divisionByZero => ()
  | .evaluation code message => (code, message, ())

def make : (kind : Kind) → Part kind → Diagnostic
  | .malformed, (code, message, span, _) => .malformed code message span
  | .disallowedConstruct, (construct, span, _) => .disallowed construct span
  | .nameNotAllowed, (name, span, _) => .nameNotAllowed name span
  | .divisionByZero, _ => .divisionByZero
  | .evaluation, (code, message, _) => .evaluation code message

/-- A diagnostic has its kind among its fields. -/
def declared [Serialization] : Tagged Kind Diagnostic where
  tag := "kind"
  kinds := Kind.all
  name := Kind.tag
  Part := Part
  fields := fields
  kind := kind
  split := split
  make := make

end Diagnostic

instance : Wire Diagnostic where
  codec := Serialization.tagged Diagnostic.declared

end Reckoner
