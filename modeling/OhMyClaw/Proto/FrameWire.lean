import OhMyClaw.Proto.EventWire

/-!
# Frames on the wire

A frame is a request, the answer to one, or an event; which, it names in `kind`.  The members of
what it frames are not in an object of their own, they stand beside `kind`.

    Frame.members    the frame with its tag
-/

namespace OhMyClaw.Proto

open Serde (Codec Record Members)

structure Req where
  id : String
  method : Method
  idempotencyKey : Option String
deriving DecidableEq, Repr

def Req.record : Record Req :=
  (Record.field (.required "id" .str) <|
    .field (.required "method" Method.members.codec) <|
    .last (.skipNone "idempotency_key" .str)).map
    (fun r => (r.id, r.method, r.idempotencyKey))
    (fun (id, method, idempotencyKey) => ⟨id, method, idempotencyKey⟩) fun _ => rfl

def errorKindName : ErrorKind → String
  | .protoVersionMismatch => "proto_version_mismatch"
  | .badRequest => "bad_request"
  | .unsupported => "unsupported"
  | .internal => "internal"
  | .aborted => "aborted"
  | .timeout => "timeout"

def errorKind : Codec ErrorKind :=
  .names [.protoVersionMismatch, .badRequest, .unsupported, .internal, .aborted, .timeout] errorKindName
    (by intro a; cases a <;> decide)

def protoError : Record ProtoError :=
  (Record.field (.required "kind" errorKind) <|
    .last (.required "message" .str)).map
    (fun e => (e.kind, e.message)) (fun (kind, message) => ⟨kind, message⟩) fun _ => rfl

inductive ResResult where
  | ok (value : MethodOk)
  | err (e : ProtoError)
deriving DecidableEq, Repr

namespace ResResult

def keys : List String := MethodOk.members.keys ++ protoError.keys

def write : ResResult → String × List (String × Json)
  | .ok value => ("ok", MethodOk.members.write value)
  | .err e => ("err", protoError.write e)

def read : String → List (String × Json) → Option ResResult
  | "ok" => Serde.struct MethodOk.members .ok
  | "err" => Serde.struct protoError.toMembers .err
  | _ => fun _ => none

theorem key_mem (result : ResResult) : ∀ m ∈ result.write.2, m.1 ∈ keys := by
  cases result with
  | ok value => exact MethodOk.members.keys_mem (by decide) value
  | err e => exact protoError.keys_mem (by decide) e

theorem read_write (result : ResResult) : read result.write.1 result.write.2 = some result := by
  cases result with
  | ok value => exact Serde.struct_write MethodOk.members _ value
  | err e => exact Serde.struct_write protoError.toMembers _ e

def members : Members ResResult := .tagged "status" keys write read key_mem (by decide) read_write

end ResResult

structure Res where
  id : String
  result : ResResult
deriving DecidableEq, Repr

def Res.record : Record Res :=
  (Record.field (.required "id" .str) <|
    .last (.required "result" ResResult.members.codec)).map
    (fun r => (r.id, r.result)) (fun (id, result) => ⟨id, result⟩) fun _ => rfl

inductive Frame where
  | req (r : Req)
  | res (r : Res)
  | event (e : Event)
deriving DecidableEq, Repr

namespace Frame

def keys : List String := Req.record.keys ++ Res.record.keys ++ Event.members.keys

def write : Frame → String × List (String × Json)
  | .req r => ("req", Req.record.write r)
  | .res r => ("res", Res.record.write r)
  | .event e => ("event", Event.members.write e)

def read : String → List (String × Json) → Option Frame
  | "req" => Serde.struct Req.record.toMembers .req
  | "res" => Serde.struct Res.record.toMembers .res
  | "event" => Serde.struct Event.members .event
  | _ => fun _ => none

theorem key_mem (f : Frame) : ∀ m ∈ f.write.2, m.1 ∈ keys := by
  cases f with
  | req r => exact Req.record.keys_mem (by decide) r
  | res r => exact Res.record.keys_mem (by decide) r
  | event e => exact Event.members.keys_mem (by decide) e

theorem read_write (f : Frame) : read f.write.1 f.write.2 = some f := by
  cases f with
  | req r => exact Serde.struct_write Req.record.toMembers _ r
  | res r => exact Serde.struct_write Res.record.toMembers _ r
  | event e => exact Serde.struct_write Event.members _ e

/-- None of the fields beside `kind` is called `kind`. -/
theorem kind_notMem_keys : "kind" ∉ keys := by decide

def members : Members Frame := .tagged "kind" keys write read key_mem kind_notMem_keys read_write

def codec : Codec Frame := members.codec

end Frame

end OhMyClaw.Proto
