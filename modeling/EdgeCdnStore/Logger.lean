-- The errors of the proxy, as `logger.rs` makes them. The trace lines
-- themselves go to a log and change nothing that the cache reads.
import Mathlib

namespace edge_cdn_store.logger

inductive ErrorType
  | InternalError
  | ConnectError
  | HTTPStatus (code : UInt16)
  deriving DecidableEq, Repr

structure Error where
  etype : ErrorType
  context : String
  deriving DecidableEq, Repr

def ErrorType.as_str : ErrorType → String
  | .InternalError => "InternalError"
  | .ConnectError => "ConnectError"
  | .HTTPStatus _ => "HTTPStatus"

/-- An error displays its type and its text. -/
instance : ToString Error := ⟨fun e => s!" {e.etype.as_str} context: {e.context}"⟩

abbrev Result (α : Type) := Except Error α

/-- `Error::e_explain`: an error with a type and a text. -/
def e_explain {α : Type} (etype : ErrorType) (context : String) : Result α :=
  .error ⟨etype, context⟩

/-- The error of a traced function, `InternalError` unless the caller names a type. The
name of the function and the last argument only shape the trace lines. -/
def trace_fn_exit_with_err {α : Type} (_fn_name err_msg : String)
    (error_type : Option ErrorType) (_trace_fn_enter : Bool) : Result α :=
  e_explain (error_type.getD .InternalError) err_msg

end edge_cdn_store.logger
