import MoltBrowser.TorrcFormat

set_option autoImplicit false

/-!
# The torrc of the browser's own Tor

Every value spliced into the torrc is validated here. Strings are their bytes.
-/
namespace MoltBrowser.Torrc

def kMaxBridgeLineLength : ℕ := 4096
def kMaxParamValueLength : ℕ := 2048
def kTorConnLimit : ℕ := 1000
def kTorMaxClientCircuitsPending : ℕ := 256

def isAsciiDigit (c : UInt8) : Bool := 0x30 ≤ c && c ≤ 0x39

def isAsciiLower (c : UInt8) : Bool := 0x61 ≤ c && c ≤ 0x7A

def isAsciiAlnum (c : UInt8) : Bool := isAsciiDigit c || isAsciiLower c || (0x41 ≤ c && c ≤ 0x5A)

def isHexDigit (c : UInt8) : Bool := isAsciiDigit c || (0x61 ≤ c && c ≤ 0x66) || (0x41 ≤ c && c ≤ 0x46)

def isBlank (c : UInt8) : Bool := c = 0x20 || c = 0x09

def trimBlanks (s : Bytes) : Bytes :=
 (s.dropWhile fun c => isBlank c || c = 0x0D).rdropWhile fun c => isBlank c || c = 0x0D

def splitOnBlanks (s : Bytes) : List Bytes := (s.splitOnP isBlank).filter (· ≠ [])

def decimal (digits : Bytes) : ℕ := digits.foldl (fun value c => value * 10 + (c.toNat - 0x30)) 0

def isValidPort (port : Bytes) : Bool :=
 !port.isEmpty && port.length ≤ 5 && port.all isAsciiDigit && 1 ≤ decimal port && decimal port ≤ 65535

def isValidOctet (part : Bytes) : Bool := !part.isEmpty && part.length ≤ 3 && part.all isAsciiDigit && decimal part ≤ 255

def isValidIPv4 (host : Bytes) : Bool :=
 let parts := host.splitOnP (· = 0x2E)
 parts.all isValidOctet && parts.length = 4

def isValidIPv6Literal (host : Bytes) : Bool :=
 2 ≤ host.length && host.length ≤ 45 && (host.all fun c => c = 0x3A || isHexDigit c || c = 0x2E) && 2 ≤ host.count 0x3A

/-- `<IPv4>:<port>` or `[<IPv6>]:<port>`. -/
def isValidBridgeAddress (addr : Bytes) : Bool :=
 if 0x3A ∉ addr then false
 else
  let port := addr.rtakeWhile (· ≠ 0x3A)
  let host := addr.take (addr.length - port.length - 1)
  if !isValidPort port then false
  else if host.head? = some 0x5B then
   if host.length < 3 || host.getLast? ≠ some 0x5D then false
   else isValidIPv6Literal ((host.drop 1).take (host.length - 2))
  else isValidIPv4 host

def isValidParamKey (key : Bytes) : Bool :=
 !key.isEmpty && key.length ≤ 32 && key.head?.any isAsciiLower &&
  key.all fun c => isAsciiLower c || isAsciiDigit c || c = 0x2D || c = 0x5F

def kExtra : Bytes := utf8 "+/=:,.-_~%@?&[]"

def isValidParamValue (value : Bytes) : Bool :=
 !value.isEmpty && value.length ≤ kMaxParamValueLength && value.all fun c => isAsciiAlnum c || kExtra.contains c

def isValidObfs4Cert (cert : Bytes) : Bool :=
 let padding := (cert.rtakeWhile (· = 0x3D)).length
 let cert := cert.rdropWhile (· = 0x3D)
 padding ≤ 2 && 40 ≤ cert.length && cert.length ≤ 120 && cert.all fun c => isAsciiAlnum c || c = 0x2B || c = 0x2F

def splitPathComponents (path : Bytes) (backslashSeparates : Bool) : List Bytes :=
 path.splitOnP fun c => c = 0x2F || (backslashSeparates && c = 0x5C)

def isValidExitCountry (cc : Bytes) : Bool := cc.length = 2 && cc.all isAsciiLower

def isSafeTorrcValue (value : Bytes) : Bool :=
 !(value.isEmpty || value.head? = some 0x22 || value.head?.any isBlank || value.getLast?.any isBlank ||
  value.getLast? = some 0x5C) &&
 value.all fun c => !(c < 0x20 || c = 0x7F || c = 0x23)

def isNamedComponent (component : Bytes) : Bool :=
 !(component.isEmpty || component = utf8 "." || component = utf8 "..")

def isValidTransportExec (exec : Bytes) : Bool :=
 if !isSafeTorrcValue exec then false
 else if exec.any isBlank then false
 else if exec.head? = some 0x2F then
  if 0x5C ∈ exec then false else (splitPathComponents (exec.drop 1) false).all isNamedComponent
 else if exec.head? = some 0x5C || (2 ≤ exec.length && exec[1]? = some 0x3A) then false
 else
  let components := splitPathComponents exec true
  -- Only the first may be `.`.
  let named := if components.head? = some (utf8 ".") then components.tail else components
  named.all isNamedComponent && 2 ≤ components.length && 1 ≤ named.length

/-! ## Bridge lines -/

inductive BridgeTransport where
 | kObfs4
 | kSnowflake
 deriving DecidableEq

structure BridgeOptions where
 keys : List Bytes := []
 hasCert : Bool := false
 hasIat : Bool := false

def bridgeOption (isObfs4 : Bool) (seen : BridgeOptions) (token : Bytes) : Except String BridgeOptions :=
 if 0x3D ∉ token then .error "bridge options must be key=value"
 else
  let key := token.takeWhile (· ≠ 0x3D)
  let value := (token.dropWhile (· ≠ 0x3D)).tail
  if !isValidParamKey key || !isValidParamValue value then .error "invalid bridge option"
  else if seen.keys.contains key then .error "duplicate bridge option"
  else
   let seen := { seen with keys := key :: seen.keys }
   if !isObfs4 then .ok seen
   else if key = utf8 "cert" then
    if !isValidObfs4Cert value then .error "invalid obfs4 cert" else .ok { seen with hasCert := true }
   else if key = utf8 "iat-mode" then
    if value ≠ utf8 "0" ∧ value ≠ utf8 "1" ∧ value ≠ utf8 "2" then .error "invalid obfs4 iat-mode"
    else .ok { seen with hasIat := true }
   else .error "unexpected obfs4 option"

def upperHex (c : UInt8) : UInt8 := if 0x61 ≤ c ∧ c ≤ 0x66 then c - 32 else c

def normalizeBridgeLine (line : Bytes) : Except String Bytes :=
 let line := trimBlanks line
 if line.length > kMaxBridgeLineLength then .error "bridge line is too long"
 else if line.any fun c => !(0x21 ≤ c && c ≤ 0x7E) && !isBlank c then .error "bridge line contains an invalid character"
 else
  let tokens := splitOnBlanks line
  let tokens := if tokens.head? = some (utf8 "Bridge") then tokens.tail else tokens
  match tokens with
  | transport :: address :: fingerprint :: options =>
   let isObfs4 : Bool := transport = utf8 "obfs4"
   if !isObfs4 && transport ≠ utf8 "snowflake" then .error "only obfs4 and snowflake bridges are supported"
   else if !isValidBridgeAddress address then .error "invalid bridge address (expected IPv4:port or [IPv6]:port)"
   else if fingerprint.length ≠ 40 then .error "invalid fingerprint (expected 40 hex characters)"
   else if fingerprint.any fun c => !isHexDigit c then .error "invalid fingerprint (expected 40 hex characters)"
   else
    match options.foldlM (bridgeOption isObfs4) {} with
    | .error why => .error why
    | .ok seen =>
     if isObfs4 && (!seen.hasCert || !seen.hasIat) then .error "obfs4 bridges need cert= and iat-mode="
     else .ok (transport ++ 0x20 :: (address ++ 0x20 :: (fingerprint.map upperHex ++ options.flatMap (0x20 :: ·))))
  | _ => .error "expected: <transport> <address:port> <fingerprint> ..."

def getBridgeTransport (normalizedLine : Bytes) : Option BridgeTransport :=
 let transport := normalizedLine.takeWhile (· ≠ 0x20)
 if transport = utf8 "obfs4" then some .kObfs4
 else if transport = utf8 "snowflake" then some .kSnowflake
 else none

/-! ## The torrc -/

structure TorrcOptions where
 dataDir : Bytes := []
 cookieFile : Bytes := []
 controlPortFile : Bytes := []
 logFile : Bytes := []
 geoipFile : Bytes := []
 geoip6File : Bytes := []
 exitCountry : Bytes := []
 bridgeLines : List Bytes := []
 obfs4Exec : Bytes := []
 snowflakeExec : Bytes := []

def failIf (bad : Bool) (why : String) : Except String Unit := if bad then .error why else .ok ()

def checkPath (name : String) (value : Bytes) : Except String Unit :=
 failIf (!isSafeTorrcValue value) ("unsafe or empty path for " ++ name)

/-- Which transports the bridge lines need, given those that the lines before need. -/
def neededTransports (needsObfs4 needsSnowflake : Bool) : List Bytes → Except String (Bool × Bool)
 | [] => .ok (needsObfs4, needsSnowflake)
 | line :: lines =>
  match normalizeBridgeLine line with
  | .error _ => .error "invalid bridge line"
  | .ok normalized =>
   if normalized ≠ line then .error "invalid bridge line"
   else
    match getBridgeTransport line with
    | some .kObfs4 => neededTransports true needsSnowflake lines
    | some .kSnowflake => neededTransports needsObfs4 true lines
    | none => neededTransports needsObfs4 needsSnowflake lines

/-- The checks before anything is written, with the transports needed. -/
def checkOptions (options : TorrcOptions) : Except String (Bool × Bool) := do
 checkPath "DataDirectory" options.dataDir
 checkPath "CookieAuthFile" options.cookieFile
 checkPath "ControlPortWriteToFile" options.controlPortFile
 checkPath "Log" options.logFile
 failIf (!options.geoipFile.isEmpty && !isSafeTorrcValue options.geoipFile) "unsafe GeoIPFile path"
 failIf (!options.geoip6File.isEmpty && !isSafeTorrcValue options.geoip6File) "unsafe GeoIPv6File path"
 failIf (!options.exitCountry.isEmpty && !isValidExitCountry options.exitCountry) "invalid exit country"
 let (needsObfs4, needsSnowflake) ← neededTransports false false options.bridgeLines
 failIf (needsObfs4 && !isValidTransportExec options.obfs4Exec) "obfs4 bridges need a usable obfs4 transport"
 failIf (needsSnowflake && !isValidTransportExec options.snowflakeExec) "snowflake bridges need a usable snowflake transport"
 return (needsObfs4, needsSnowflake)

def torrcText (options : TorrcOptions) (needsObfs4 needsSnowflake : Bool) : Bytes :=
 utf8 "# Auto-generated by MoltBrowser on every launch. Do not edit.\n" ++
 utf8 "SocksPort auto IsolateSOCKSAuth KeepAliveIsolateSOCKSAuth\n" ++
 utf8 "ControlPort auto\n" ++
 (utf8 "ControlPortWriteToFile " ++ options.controlPortFile ++ utf8 "\n") ++
 utf8 "CookieAuthentication 1\n" ++
 (utf8 "CookieAuthFile " ++ options.cookieFile ++ utf8 "\n") ++
 (utf8 "DataDirectory " ++ options.dataDir ++ utf8 "\n") ++
 (utf8 "Log notice file " ++ options.logFile ++ utf8 "\n") ++
 utf8 "AvoidDiskWrites 1\n" ++
 (utf8 "ConnLimit " ++ utf8 (toString kTorConnLimit) ++ utf8 "\n") ++
 (utf8 "MaxClientCircuitsPending " ++ utf8 (toString kTorMaxClientCircuitsPending) ++ utf8 "\n") ++
 (if options.geoipFile.isEmpty then [] else utf8 "GeoIPFile " ++ options.geoipFile ++ utf8 "\n") ++
 (if options.geoip6File.isEmpty then [] else utf8 "GeoIPv6File " ++ options.geoip6File ++ utf8 "\n") ++
 (if options.bridgeLines.isEmpty then []
  else
   utf8 "UseBridges 1\n" ++
   (if needsObfs4 then utf8 "ClientTransportPlugin obfs4 exec " ++ options.obfs4Exec ++ utf8 "\n" else []) ++
   (if needsSnowflake then utf8 "ClientTransportPlugin snowflake exec " ++ options.snowflakeExec ++ utf8 "\n" else []) ++
   options.bridgeLines.flatMap fun line => utf8 "Bridge " ++ line ++ utf8 "\n") ++
 (if options.exitCountry.isEmpty then []
  else utf8 "ExitNodes \x7b" ++ options.exitCountry ++ utf8 "\x7d\n" ++ utf8 "StrictNodes 1\n")

def buildTorrc (options : TorrcOptions) : Except String Bytes :=
 match checkOptions options with
 | .error why => .error why
 | .ok (needsObfs4, needsSnowflake) => .ok (torrcText options needsObfs4 needsSnowflake)

end MoltBrowser.Torrc
