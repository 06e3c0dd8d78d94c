import TermSync.Util

/-!
# Protocol messages (`TsMessage` in `termsync.h`)

One record serves all message types; a type uses some of its fields only.
-/

namespace TermSync

/-- `TsMessage` -/
structure TsMessage where
  type : Bytes
  clientId : Bytes
  opId : Bytes
  message : Bytes
  reason : Bytes
  baseVersion : ℤ
  serverVersion : ℤ
  version : ℤ
  historyStartVersion : ℤ
  op : TsOperation
  originalOp : TsOperation
  hasOp : Bool
  hasOriginalOp : Bool
  content : Option Bytes
  deriving DecidableEq, Repr

/-- `ts_message_init`: zeroed, with every version unset. -/
def tsMessageInit : TsMessage where
  type := []
  clientId := []
  opId := []
  message := []
  reason := []
  baseVersion := -1
  serverVersion := -1
  version := -1
  historyStartVersion := -1
  op := {}
  originalOp := {}
  hasOp := false
  hasOriginalOp := false
  content := none

/-! ## Message types -/

def typeJoin : Bytes := bytes "JOIN"
def typeWelcome : Bytes := bytes "WELCOME"
def typeOp : Bytes := bytes "OP"
def typeAck : Bytes := bytes "ACK"
def typeRemoteOp : Bytes := bytes "REMOTE_OP"
def typeError : Bytes := bytes "ERROR"
def typeResyncRequired : Bytes := bytes "RESYNC_REQUIRED"
def typeRequestDoc : Bytes := bytes "REQUEST_DOC"
def typeDocState : Bytes := bytes "DOC_STATE"
def typeSave : Bytes := bytes "SAVE"
def typeSaveQueued : Bytes := bytes "SAVE_QUEUED"
def typePing : Bytes := bytes "PING"
def typePong : Bytes := bytes "PONG"

end TermSync
