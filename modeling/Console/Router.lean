import Console.Shell.Load
import Console.Text.Ascending

/-!
# The router console

A console in the style of a router. The exec shell leads to the enable shell and that one to the
config shell; the commands act on a small device.

* `Device`: a host name and interfaces;
* `View`: where the device is kept in the world that the commands act on;
* `Router.exec`: the exec shell with the others below it.
-/

namespace Console

open Text

/-! ## The device -/

/-- What the console configures. -/
structure Device where
  hostname : String
  /-- The interfaces by name in ascending order, each with whether it is shut down. -/
  interfaces : List (String × Bool)
  deriving DecidableEq, Repr

namespace Device

/-- A device without interfaces. -/
def named (hostname : String) : Device := ⟨hostname, []⟩

/-- Sets an interface. -/
def setInterface (d : Device) (name : String) (shutdown : Bool) : Device :=
  { d with interfaces := insertByKey Prod.fst (name, shutdown) d.interfaces }

/-- The device in full, a line each. -/
def details (d : Device) : List String :=
  ["DemoState \x7b", "    hostname: " ++ Quoted.quote d.hostname ++ ","] ++
    (if d.interfaces.isEmpty then ["    interfaces: \x7b\x7d,"]
      else ["    interfaces: \x7b"] ++
        d.interfaces.map (fun i =>
          "        " ++ Quoted.quote i.1 ++ ": " ++ (if i.2 then "true" else "false") ++ ",") ++
        ["    \x7d,"]) ++
    ["\x7d"]

end Device

/-- Where the device is kept in a world of type `σ`. -/
structure View (σ : Type) where
  get : σ → Device
  put : Device → σ → σ

/-- The device as the whole world. -/
def View.self : View Device := ⟨id, fun d _ => d⟩

namespace Router

variable {σ : Type}

/-! ## The commands -/

/-- Writes some lines and goes on. -/
def tell (lines : List String) (world : σ) : Conduct σ :=
  .printAll (lines.map (· ++ "\n")) world (.finish (.ok .continue) world)

/-- A command of the console. -/
def command (serial : Nat) (spec : String) (help : List String)
    (respond : Invocation → σ → Conduct σ) (hidden : Bool := false) : Command σ :=
  ⟨spec, help, hidden, ⟨spec, serial, respond⟩⟩

/-- Leaves the shell. -/
def leave (_ : Invocation) (world : σ) : Conduct σ := .finish (.ok .exit) world

/-- Goes into a mode. -/
def goto (mode : String) (_ : Invocation) (world : σ) : Conduct σ :=
  .finish (.ok (.enter mode)) world

/-- Tells the version. -/
def showVersion (_ : Invocation) (world : σ) : Conduct σ := tell ["iscli version 0.2.0"] world

/-- Pretends to send echo messages. -/
def ping (i : Invocation) (world : σ) : Conduct σ :=
  let host := (i.word 0).getD ""
  let count := ((i.integer 2).getD 5).toInt
  tell
    ["Sending " ++ toString count ++ " echo messages to " ++ host ++ ":",
      String.ofList (List.replicate count.toNat '!'),
      "Success rate is 100 percent (" ++ toString count ++ "/" ++ toString count ++ ")"]
    world

/-- Tells the host name and the number of interfaces. -/
def showSystem (v : View σ) (_ : Invocation) (world : σ) : Conduct σ :=
  tell
    ["System name: " ++ (v.get world).hostname,
      "Interfaces:  " ++ toString (v.get world).interfaces.length]
    world

/-- Tells the interfaces that are not shut down. -/
def showRoutes (v : View σ) (_ : Invocation) (world : σ) : Conduct σ :=
  tell
    (((v.get world).interfaces.filter fun i => !i.2).map fun i =>
      "C    directly connected, " ++ i.1)
    world

/-- Tells the device in full. -/
def showDetails (v : View σ) (_ : Invocation) (world : σ) : Conduct σ :=
  tell (v.get world).details world

/-- What a mount is asked for. -/
structure Mount where
  path : String := "/"
  port : Int64 := 22

/-- Reads the options of a mount, which stand in pairs of a name and a value. -/
def Mount.ofArgs (m : Mount) : List Value → Mount
  | .word "path" :: .word path :: rest => ofArgs { m with path } rest
  | .word "port" :: .integer port :: rest => ofArgs { m with port } rest
  | _ :: _ :: rest => ofArgs m rest
  | _ => m

/-- Pretends to mount a remote file system. -/
def sshfs (i : Invocation) (world : σ) : Conduct σ :=
  let host := (i.word 0).getD ""
  let user := (i.word 1).getD ""
  let mount := Mount.ofArgs {} (i.args.drop 2)
  if mount.path.toList.head? = some '/' then
    tell
      ["Mounting " ++ user ++ "@" ++ host ++ ":" ++ mount.path ++ " on port " ++
        toString mount.port.toInt]
      world
  else .finish (.error (.command ("Remote path must be absolute: " ++ mount.path))) world

/-- Writes its arguments. -/
def echo (i : Invocation) (world : σ) : Conduct σ :=
  tell [" ".intercalate (i.args.map Value.text)] world

/-- Sets the host name. -/
def setHostname (v : View σ) (i : Invocation) (world : σ) : Conduct σ :=
  match i.word 0 with
  | none => .finish (.error (.command "Missing host name")) world
  | some hostname => .finish (.ok .continue) (v.put { v.get world with hostname } world)

/-- Sets an interface. -/
def setInterface (v : View σ) (i : Invocation) (world : σ) : Conduct σ :=
  let device := (v.get world).setInterface ((i.word 0).getD "") (i.word 1 == some "shutdown")
  .finish (.ok .continue) (v.put device world)

/-! ## The shells -/

/-- The name of the mode of the enable shell. -/
def enableMode : String := "enable"

/-- The name of the mode of the config shell. -/
def configMode : String := "config"

/-- Help for `show`. -/
def showHelp : String := "Show running system information"

/-- Help for `exit`. -/
def exitHelp : String := "Exit from the current mode"

/-- The commands of the exec shell. -/
def execCommands : CommandSet σ :=
  .ofList
    [command 0 "enable" ["Turn on privileged commands"] (goto enableMode),
      command 1 "show version" [showHelp, "Software version"] showVersion,
      command 2 "ping HOST (count <1-100>|)"
        ["Send echo messages", "A.B.C.D, X:X::X:X or host name", "Number of echo messages",
          "Count"]
        ping,
      command 3 "exit" [exitHelp] leave]

/-- The commands of the enable shell. -/
def enableCommands (v : View σ) : CommandSet σ :=
  .ofList
    [command 4 "disable" ["Turn off privileged commands"] leave,
      command 5 "show system" [showHelp, "System properties"] (showSystem v),
      command 6 "show version" [showHelp, "Software version"] showVersion,
      command 7 "show ip route" [showHelp, "IP information", "Routing table"] (showRoutes v),
      command 8 "show tech-support" [showHelp, "Everything, for support"] (showDetails v) true,
      command 9 "sshfs HOSTNAME username USERNAME (\x7bpath PATH | port <1-65535>\x7d|)"
        ["Mount a remote file system", "A.B.C.D, X:X::X:X or host name", "SSH Username",
          "Username", "Remote path", "Path", "SSH Port", "Port"]
        sshfs,
      command 10 "echo .WORD" ["Echo the given words", "Word"] echo,
      command 11 "configure terminal"
        ["Enter configuration mode", "Configure from the terminal"] (goto configMode),
      command 12 "exit" [exitHelp] leave]

/-- The commands of the config shell. -/
def configCommands (v : View σ) : CommandSet σ :=
  .ofList
    [command 13 "hostname NAME" ["Set system's network name", "Name"] (setHostname v),
      command 14 "interface IFNAME (shutdown|)"
        ["Select an interface", "Interface name", "Shut the interface down"] (setInterface v),
      command 15 "end" ["End configuration mode"] leave,
      command 16 "exit" [exitHelp] leave]

/-- A shell with some commands. -/
def shellOf (prompt : String) (set : CommandSet σ) : Except Error (Shell σ) :=
  (Shell.empty prompt).withCommands set.commands

/-- The exec shell, with the enable shell and the config shell below it. -/
def exec (v : View σ) (hostname : String) : Except Error (Shell σ) := do
  let config ← shellOf (hostname ++ "(config)# ") (configCommands v)
  let enable ← shellOf (hostname ++ "# ") (enableCommands v)
  let exec ← shellOf (hostname ++ "> ") execCommands
  return exec.addMode enableMode (enable.addMode configMode config)

end Router

end Console
