import Console.Proofs.Router.Dispatch
import Console.Proofs.Shell.Calls
import Console.Proofs.Shell.InTurn

/-!
# Mounting a remote file system

The enable shell has one command for it. Behind a host and a user it takes a path and a port, in
any order, and either of them may be left out.

* `mountCommand`, `eq_mountCommand`: the command, and that no other one begins like it;
* `mountOrders`, `parametersAlong_mount`: its parameters stand one behind the other;
* `Mounting`, `Mounting.Proper`, `Mounting.AskedBy`: what is typed for a mount;
* `Mounting.Proper.run_sshfs`: what the handler does with it;
* `read_mount`: a line for a mount calls the handler;
* **`enable_dispatch_mount`**: what such a line does in the enable shell.
-/

namespace Console

open Parameter

variable {σ : Type}

namespace Router

/-! ## The command -/

/-- The command that mounts a remote file system. -/
def mountCommand : Command Device :=
  command 9 "sshfs HOSTNAME username USERNAME (\x7bpath PATH | port <1-65535>\x7d|)"
    ["Mount a remote file system", "A.B.C.D, X:X::X:X or host name", "SSH Username", "Username",
      "Remote path", "Path", "SSH Port", "Port"]
    sshfs

theorem mountCommand_mem : mountCommand ∈ (enableCommands .self).commands :=
  List.mem_of_getElem? (i := 5) rfl

/-- The name of the command, and the host behind it. -/
def hostParameter : Parameter :=
  ⟨.ofArgspec "sshfs" "Mount a remote file system" false,
    .ofArgspec "HOSTNAME" "A.B.C.D, X:X::X:X or host name" false⟩

/-- The keyword for the user, and the user. -/
def userParameter : Parameter :=
  ⟨.ofArgspec "username" "SSH Username" false, .ofArgspec "USERNAME" "Username" false⟩

/-- The option for the path. -/
def pathParameter : Parameter :=
  ⟨.ofArgspec "path" "Remote path" true, .ofArgspec "PATH" "Path" true⟩

/-- The option for the port. -/
def portParameter : Parameter :=
  ⟨.ofArgspec "port" "SSH Port" true, .ofArgspec "<1-65535>" "Port" true⟩

/-- The parameters of a mount: the host, the user, and the options in each order there is. -/
def mountOrders : List (List Parameter) :=
  [[], [pathParameter], [portParameter], [pathParameter, portParameter],
    [portParameter, pathParameter]].map ([hostParameter, userParameter] ++ ·)

theorem eq_mountCommand {c : Command Device} (hc : c ∈ (enableCommands .self).commands)
    {p : List String} (hdenotes : c.Denotes (hostParameter.key.keyword :: p)) :
    c = mountCommand := by
  have hadds := CommandSet.mem_of_mem_commands_ofList hc
  simp only [List.mem_cons, List.not_mem_nil, or_false] at hadds
  rcases hadds with rfl | rfl | rfl | rfl | rfl | rfl | rfl | rfl | rfl
  -- All but the one that mounts begin with something else.
  all_goals first
    | rfl
    | exact absurd hdenotes (Command.not_denotes_cons (by decide +kernel))

theorem mountCommand_denotes {ps : List Parameter} (hps : ps ∈ mountOrders) :
    mountCommand.Denotes ((ps.flatMap pair).map Element.keyword) := by
  have hpaths : ∀ ps ∈ mountOrders, ps.flatMap pair ∈ mountCommand.paths := by
    decide +kernel
  exact ⟨_, Command.hasPath_iff_mem.mpr (hpaths ps hps), rfl⟩

theorem parametersAlong_mount {s : Shell Device}
    (hroot : CommandTree.root.withCommands (enableCommands .self).commands = .ok s.root)
    {ps : List Parameter} (hps : ps ∈ mountOrders) :
    s.root.parametersAlong? (ps.map fun p => p.key.keyword) = some ps := by
  -- The tree is computed from the commands, once for all orders.
  have halong : ∀ ps ∈ mountOrders,
      ((CommandTree.root.withCommands (enableCommands .self).commands).toOption.bind
        (·.parametersAlong? (ps.map fun p => p.key.keyword))) = some ps := by
    decide +kernel
  have h := halong ps hps
  rwa [hroot] at h

/-! ## What is typed for a mount -/

/-- What is typed for a mount: a host, a user, and perhaps a path and a port. The port is a text and
the number that this denotes. -/
structure Mounting where
  host : String
  user : String
  path : Option String
  port : Option (String × ℤ)

namespace Mounting

/-- The host, the user and the path do not begin the keywords of their places, and the text of the
port denotes a number from 1 to 65535. -/
structure Proper (m : Mounting) : Prop where
  host : ¬ m.host.toList <+: "HOSTNAME".toList
  user : ¬ m.user.toList <+: "USERNAME".toList
  path : ∀ x ∈ m.path, ¬ x.toList <+: "PATH".toList
  port : ∀ p ∈ m.port, Text.Decimal.Denotes p.1.toList p.2 ∧ 1 ≤ p.2 ∧ p.2 ≤ 65535

/-- The options, each of them a name and a value. -/
def options (m : Mounting) : List (List String) :=
  (m.path.map fun x => ["path", x]).toList ++ (m.port.map fun p => ["port", p.1]).toList

/-- The line is one for this mount, with the options in either order. -/
def AskedBy (m : Mounting) (line : String) : Prop :=
  ∃ options ∈ [m.options, m.options.reverse],
    Shell.parse line = some (["sshfs", m.host, "username", m.user] ++ options.flatten)

/-- What is told about the mount. -/
def told (m : Mounting) : String :=
  "Mounting " ++ m.user ++ "@" ++ m.host ++ ":" ++ m.path.getD "/" ++ " on port " ++
    toString ((m.port.map Prod.snd).getD 22) ++ "\n"

/-- What becomes of a line for the mount: it is told, or else the path is refused. -/
def reply (m : Mounting) (world : σ) (sink : Sink) : Reply σ :=
  if (m.path.getD "/").toList.head? = some '/' then .telling m.told world sink
  else ⟨.error (.command ("Remote path must be absolute: " ++ m.path.getD "/")), world, sink⟩

/-! ## What is typed for its parameters -/

/-- What is typed for the host and the user. -/
def base (m : Mounting) : List Given :=
  [⟨hostParameter, m.host, .word m.host⟩, ⟨userParameter, m.user, .word m.user⟩]

/-- What is typed for the path and the port. -/
def given (m : Mounting) : List Given :=
  (m.path.map fun x => ⟨pathParameter, x, .word x⟩).toList ++
    (m.port.map fun p => ⟨portParameter, p.1, .integer (.ofInt p.2)⟩).toList

variable {m : Mounting}

theorem keywords : hostParameter.key.keyword = "sshfs" ∧ userParameter.key.keyword = "username" ∧
    pathParameter.key.keyword = "path" ∧ portParameter.key.keyword = "port" := by
  decide +kernel

theorem options_eq (m : Mounting) : m.options = m.given.map Given.fragments := by
  obtain ⟨-, -, hpath, hport⟩ := keywords
  obtain ⟨host, user, path, port⟩ := m
  cases path <;> cases port <;> simp [options, given, Given.fragments, hpath, hport]

theorem AskedBy.exists_given {line : String} (h : m.AskedBy line) :
    ∃ gs ∈ [m.given, m.given.reverse],
      Shell.parse line = some ((m.base ++ gs).flatMap Given.fragments) := by
  obtain ⟨options, hoptions, hline⟩ := h
  rw [options_eq, ← List.map_reverse] at hoptions
  obtain ⟨gs, hgs, rfl⟩ : ∃ gs ∈ [m.given, m.given.reverse], gs.map Given.fragments = options :=
    List.mem_map.mp hoptions
  obtain ⟨hhost, huser, -⟩ := keywords
  have hbase : m.base.flatMap Given.fragments = ["sshfs", m.host, "username", m.user] := by
    simp [base, Given.fragments, hhost, huser]
  exact ⟨gs, hgs, by rw [hline, List.flatMap_append, hbase, List.flatMap]⟩

theorem mem_mountOrders {gs : List Given} (h : gs ∈ [m.given, m.given.reverse]) :
    (m.base ++ gs).map Given.parameter ∈ mountOrders := by
  rw [List.map_append]
  refine List.mem_map_of_mem (f := ([hostParameter, userParameter] ++ ·)) ?_
  obtain ⟨host, user, path, port⟩ := m
  cases path <;> cases port <;> rcases List.mem_pair.mp h with rfl | rfl <;> simp [given]

theorem Proper.fits_base (hm : m.Proper) : ∀ g ∈ m.base, g.Fits := by
  have hconverter : hostParameter.place.converter = some .variable ∧
      userParameter.place.converter = some .variable := by
    decide +kernel
  have hkeyword : hostParameter.place.keyword = "HOSTNAME" ∧
      userParameter.place.keyword = "USERNAME" := by
    decide +kernel
  refine List.forall_mem_cons.mpr ⟨?_, List.forall_mem_singleton.mpr ?_⟩
  · exact Given.fits_word hconverter.1 (hkeyword.1 ▸ hm.host)
  · exact Given.fits_word hconverter.2 (hkeyword.2 ▸ hm.user)

theorem Proper.fits_given (hm : m.Proper) : ∀ g ∈ m.given, g.Fits := by
  have hpath : pathParameter.place.converter = some .variable ∧
      pathParameter.place.keyword = "PATH" := by
    decide +kernel
  have hport : portParameter.place.converter = some (.range 1 65535) ∧
      portParameter.place.keyword.toList.head? = some '<' := by
    decide +kernel
  intro g hg
  rcases List.mem_append.mp hg with hg | hg
  · obtain ⟨x, hx, rfl⟩ := Option.map_eq_some_iff.mp (Option.mem_toList.mp hg)
    exact Given.fits_word hpath.1 (hpath.2 ▸ hm.path x hx)
  · obtain ⟨p, hp, rfl⟩ := Option.map_eq_some_iff.mp (Option.mem_toList.mp hg)
    obtain ⟨hdenotes, hbounds⟩ := hm.port p hp
    exact Given.fits_integer hport.1 hport.2 hdenotes hbounds

theorem handed_base (m : Mounting) :
    m.base.flatMap Given.handed = [.word m.host, .word m.user] := by
  have harguments : hostParameter.key.isArgument = false ∧ hostParameter.place.isArgument = true ∧
      userParameter.key.isArgument = false ∧ userParameter.place.isArgument = true := by
    decide +kernel
  simp [base, Given.handed, harguments]

theorem handed_given (m : Mounting) : ∀ g ∈ m.given, g.handed = g.arguments := by
  have harguments : pathParameter.key.isArgument = true ∧ pathParameter.place.isArgument = true ∧
      portParameter.key.isArgument = true ∧ portParameter.place.isArgument = true := by
    decide +kernel
  obtain ⟨host, user, path, port⟩ := m
  cases path <;> cases port <;> simp [given, Given.handed, Given.arguments, harguments]

theorem ofArgs_given {gs : List Given} (h : gs ∈ [m.given, m.given.reverse]) :
    Mount.ofArgs {} (gs.flatMap Given.arguments) =
      ⟨m.path.getD "/", (m.port.map fun p => .ofInt p.2).getD 22⟩ := by
  obtain ⟨-, -, hpath, hport⟩ := keywords
  obtain ⟨host, user, path, port⟩ := m
  cases path <;> cases port <;> rcases List.mem_pair.mp h with rfl | rfl <;>
    simp [given, Given.arguments, hpath, hport, Mount.ofArgs]

theorem Proper.toInt_port (hm : m.Proper) :
    ((m.port.map fun p => Int64.ofInt p.2).getD 22).toInt = (m.port.map Prod.snd).getD 22 := by
  have hmin : Int64.minValue.toInt = -2 ^ 63 := Int64.toInt_minValue
  have hmax : Int64.maxValue.toInt = 2 ^ 63 - 1 := Int64.toInt_maxValue
  cases hport : m.port with
  | none => rfl
  | some p =>
    obtain ⟨-, hfirst, hlast⟩ := hm.port p hport
    exact Text.Decimal.toInt_ofInt_of_fits ⟨by omega, by omega⟩

/-- **What the handler does.** -/
theorem Proper.run_sshfs (hm : m.Proper) {gs : List Given} (h : gs ∈ [m.given, m.given.reverse])
    (line : String) (world : σ) (sink : Sink) :
    (sshfs ⟨line, [.word m.host, .word m.user] ++ gs.flatMap Given.arguments⟩ world).run sink =
      m.reply world sink := by
  simp only [sshfs, reply, List.cons_append, List.nil_append, List.drop_succ_cons, List.drop_zero]
  rw [ofArgs_given h]
  dsimp only
  split_ifs
  · rw [hm.toInt_port]
    exact Report.run_conduct _ world sink
  · rfl

end Mounting

/-! ## What a line for a mount does -/

/-- **A line for a mount** calls the handler of the command for it, with the options in the order in
which they have been typed. -/
theorem read_mount {s : Shell Device}
    (hroot : CommandTree.root.withCommands (enableCommands .self).commands = .ok s.root)
    {m : Mounting} (hm : m.Proper) {gs : List Given} (hgs : gs ∈ [m.given, m.given.reverse])
    {line : String} (hline : Shell.parse line = some ((m.base ++ gs).flatMap Given.fragments)) :
    s.read line =
      .call mountCommand.handler ([.word m.host, .word m.user] ++ gs.flatMap Given.arguments) := by
  have hgains := gains_withCommands CommandTree.sound_root rfl hroot
  have hmem : ∀ g ∈ gs, g ∈ m.given := by
    rcases List.mem_pair.mp hgs with rfl | rfl
    · exact fun g hg => hg
    · exact fun g hg => List.mem_reverse.mp hg
  have hfits : ∀ g ∈ m.base ++ gs, g.Fits :=
    List.forall_mem_append.mpr ⟨hm.fits_base, fun g hg => hm.fits_given g (hmem g hg)⟩
  have hhanded : (m.base ++ gs).flatMap Given.handed =
      [.word m.host, .word m.user] ++ gs.flatMap Given.arguments := by
    rw [List.flatMap_append, m.handed_base,
      List.flatMap_congr fun g hg => m.handed_given g (hmem g hg)]
  have horder := Mounting.mem_mountOrders hgs
  have halong := parametersAlong_mount hroot horder
  rw [List.map_map] at halong
  rw [← hhanded]
  exact Shell.read_of_parametersAlong hgains (List.cons_ne_nil _ _) halong hfits mountCommand_mem
    (mountCommand_denotes horder) (fun d hd hdenotes => eq_mountCommand hd hdenotes) hline

theorem Mounting.AskedBy.dispatch {s : Shell Device}
    (hroot : CommandTree.root.withCommands (enableCommands .self).commands = .ok s.root)
    {m : Mounting} (hm : m.Proper) {line : String} (hline : m.AskedBy line) (device : Device) :
    (∃ args, s.Runs line device mountCommand.handler args) ∧
      ∀ sink, s.dispatch line device sink = m.reply device sink := by
  obtain ⟨gs, hgs, hparse⟩ := hline.exists_given
  have hruns := Shell.runs_of_read (read_mount hroot hm hgs hparse) device
  refine ⟨⟨_, hruns⟩, fun sink => ?_⟩
  rw [(hruns sink).2]
  exact hm.run_sshfs hgs line device sink

/-- **Mounting in the enable shell.** A line with a host, a user, and perhaps a path and a port, in
any order, calls the handler of the command that mounts. The mount is told with this path and this
port, or `/` and 22 in place of what has been left out. A path that does not begin with a slash is
refused with an error that names it, and nothing is written. -/
theorem enable_dispatch_mount (hostname : String) : ∃ exec enable : Shell Device,
    Router.exec .self hostname = .ok exec ∧ exec.mode? enableMode = some enable ∧
      mountCommand ∈ (enableCommands .self).commands ∧
      ∀ m : Mounting, m.Proper → ∀ line, m.AskedBy line → ∀ device : Device,
        (∃ args, enable.Runs line device mountCommand.handler args) ∧
          (∀ sink, (∀ x ∈ m.path, x.toList.head? = some '/') →
            enable.dispatch line device sink = .telling m.told device sink) ∧
          (∀ sink, ∀ x ∈ m.path, x.toList.head? ≠ some '/' → enable.dispatch line device sink =
            ⟨.error (.command ("Remote path must be absolute: " ++ x)), device, sink⟩) ∧
          ∀ sink line', m.AskedBy line' →
            enable.dispatch line' device sink = enable.dispatch line device sink := by
  obtain ⟨exec, enable, config, h⟩ := exists_levels hostname
  refine ⟨exec, enable, h.built, h.enable_mode, mountCommand_mem,
    fun m hm line hline device => ?_⟩
  obtain ⟨hruns, hdispatch⟩ := hline.dispatch h.enable_root hm device
  refine ⟨hruns, fun sink habsolute => ?_, fun sink x hx hrelative => ?_,
    fun sink line' hline' => ?_⟩
  · rw [hdispatch, Mounting.reply, if_pos]
    cases hpath : m.path with
    | none => rfl
    | some x => exact habsolute x hpath
  · obtain rfl : m.path.getD "/" = x := by rw [hx, Option.getD_some]
    rw [hdispatch, Mounting.reply, if_neg hrelative]
  · rw [hdispatch, (hline'.dispatch h.enable_root hm device).2]

/-- A mount with its port in front of its path, and one with a path that does not begin with a
slash. -/
theorem enable_dispatch_mount_nas : ∃ exec enable : Shell Device,
    Router.exec .self "r1" = .ok exec ∧ exec.mode? enableMode = some enable ∧
      enable.dispatch "sshfs nas username admin port +02222 path /data" (.named "r1") {} =
        .telling "Mounting admin@nas:/data on port 2222\n" (.named "r1") {} ∧
      enable.dispatch "sshfs nas username admin path data" (.named "r1") {} =
        ⟨.error (.command "Remote path must be absolute: data"), .named "r1", {}⟩ := by
  obtain ⟨exec, enable, hexec, henable, -, h⟩ := enable_dispatch_mount "r1"
  let data : Mounting := ⟨"nas", "admin", some "/data", some ("+02222", 2222)⟩
  let relative : Mounting := ⟨"nas", "admin", some "data", none⟩
  have hport : Text.Decimal.Denotes "+02222".toList 2222 :=
    Text.Decimal.signed?_eq_some.mp (by decide +kernel)
  have hdata : data.Proper := by
    refine ⟨by decide +kernel, by decide +kernel, ?_, ?_⟩
    · rintro x ⟨⟩
      decide +kernel
    · rintro p ⟨⟩
      exact ⟨hport, by decide, by decide⟩
  have hrelative : relative.Proper := by
    refine ⟨by decide +kernel, by decide +kernel, ?_, fun p hp => by cases hp⟩
    rintro x ⟨⟩
    decide +kernel
  have hdataAsked : data.AskedBy "sshfs nas username admin port +02222 path /data" :=
    ⟨data.options.reverse, .tail _ (.head _), by decide +kernel⟩
  have hrelativeAsked : relative.AskedBy "sshfs nas username admin path data" :=
    ⟨relative.options, .head _, by decide +kernel⟩
  have htold : data.told = "Mounting admin@nas:/data on port 2222\n" := by
    decide +kernel
  refine ⟨exec, enable, hexec, henable, ?_, ?_⟩
  · rw [← htold]
    refine (h data hdata _ hdataAsked _).2.1 {} ?_
    rintro x ⟨⟩
    decide +kernel
  · exact (h relative hrelative _ hrelativeAsked _).2.2.1 {} "data" rfl (by decide +kernel)

end Router

end Console
