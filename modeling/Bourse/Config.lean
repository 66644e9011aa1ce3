import Bourse.Text

/-!
# `Bourse.Config` — how an exchange is set up

The settings come from defaults, of which named variables override some. A value that cannot be read is
ignored; a setting that cannot be served is found by `validate`.
-/

namespace Bourse

/-- The settings of an exchange. -/
structure Config where
  /-- The address the exchange listens at. -/
  listenAddress : String := "127.0.0.1:5555"
  /-- The greatest number of bytes in a request. -/
  maxFrameLength : Nat := 4096
  /-- Which messages are logged. -/
  logFilter : String := "info"
  /-- Ids go on after the largest ones in the store. -/
  seedIds : Bool := true
deriving DecidableEq, Repr

namespace Config

/-- The settings that a set of variables makes of the defaults. -/
def ofVariables (value? : String → Option String) : Config :=
  let defaults : Config := {}
  { defaults with
    listenAddress := (value? "EXCHANGE_LISTEN_ADDR").getD defaults.listenAddress
    maxFrameLength :=
      ((value? "EXCHANGE_MAX_FRAME_LEN").bind Text.readUnsigned?).getD defaults.maxFrameLength
    logFilter := (value? "EXCHANGE_LOG").getD defaults.logFilter }

/-- Why the settings cannot be served, if they cannot. -/
def validate (config : Config) : Except String Unit :=
  if Text.isBlank config.listenAddress then .error "Listen address cannot be empty"
  else if config.maxFrameLength = 0 then .error "Max frame length must be positive"
  else .ok ()

end Config

end Bourse
