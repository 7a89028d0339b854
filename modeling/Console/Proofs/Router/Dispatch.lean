import Console.Proofs.Router.Configuration

/-!
# What a line does in each shell of the router

The commands of the exec shell and of the enable shell leave the device as it is, and one in each
goes into the shell below. Those of the config shell configure the device, and none goes anywhere.

* `Command.IsIdle`, `Command.Opens`: a command that writes at most, and one that goes into a mode;
* `Shell.dispatch_of_opens`: a shell with such commands only;
* `Router.setHostname_configures`, `Router.setInterface_configures`: what configures the device;
* `Router.Levels`: the three shells; **`Router.exists_levels`**: the router has them;
* **`Levels.exec_dispatch`**, **`Levels.enable_dispatch`**, **`Router.config_dispatch`**: what a
  line does in each shell.
-/

namespace Console

variable {σ : Type}

theorem CommandSet.mem_of_mem_commands_ofList {adds : List (Command σ)} {c : Command σ}
    (h : c ∈ (ofList adds).commands) : c ∈ adds := by
  rw [CommandSet.commands_ofList] at h
  obtain ⟨spec, -, hlast⟩ := List.mem_filterMap.mp h
  exact List.mem_reverse.mp (List.mem_of_find?_eq_some hlast)

namespace Command

theorem Denotes.mem {c : Command σ} {p : List String} (h : c.Denotes p) (ps : List (List String))
    (hps : c.paths.map (List.map Element.keyword) = ps) : p ∈ ps := by
  obtain ⟨es, hes, rfl⟩ := h
  exact hps ▸ List.mem_map_of_mem (hasPath_iff_mem.mp hes)

theorem not_denotes_cons {c : Command σ} {key : String} {p : List String}
    (h : ∀ es ∈ c.paths, (es.map Element.keyword).head? ≠ some key) : ¬ c.Denotes (key :: p) := by
  rintro ⟨es, hes, hp⟩
  refine h es (hasPath_iff_mem.mp hes) ?_
  rw [hp, List.head?_cons]

/-- A command that writes at most. -/
def IsIdle (c : Command σ) : Prop :=
  ∀ i world sink, ((c.handler.respond i world).run sink).Idle world

/-- A command that goes into a mode, at the end of one path. -/
structure Opens (c : Command σ) (path : List String) (mode : String) : Prop where
  paths_eq : c.paths.map (List.map Element.keyword) = [path]
  respond_eq : ∀ i world, c.handler.respond i world = .finish (.ok (.enter mode)) world

end Command

/-- In a shell with idle commands and one that goes into a mode, a line leaves the world as it is,
and goes into no mode unless it resolves to that command. -/
theorem Shell.dispatch_of_opens {s : Shell σ} {cs : List (Command σ)}
    (h : CommandTree.Gains .root cs s.root) {path : List String} {mode : String}
    (hcs : ∀ c ∈ cs, c.IsIdle ∨ c.Opens path mode) (line : String) (world : σ) (sink : Sink) :
    (s.dispatch line world sink).world = world ∧
      ∀ m, (s.dispatch line world sink).result = .ok (.enter m) →
        m = mode ∧ ∃ args, s.resolve? line = some (path, args) := by
  obtain ⟨-, hidle⟩ | ⟨c, hc, p, args, hdenotes, hline, hreply⟩ := dispatch_cases h line world sink
  · exact ⟨hidle.world_eq, fun m hm => absurd hm (hidle.stays m)⟩
  · rw [hreply]
    obtain hidle | hopens := hcs c hc
    · exact ⟨(hidle _ _ _).world_eq, fun m hm => absurd hm ((hidle _ _ _).stays m)⟩
    · obtain rfl := List.mem_singleton.mp (hdenotes.mem [path] hopens.paths_eq)
      rw [hopens.respond_eq]
      exact ⟨rfl, fun m hm => ⟨by cases hm; rfl, args, hline⟩⟩

namespace Router

/-! ## The commands that write at most -/

theorem idle_tell (lines : List String) (world : σ) (sink : Sink) :
    ((tell lines world).run sink).Idle world :=
  Conduct.idle_printAll (Conduct.idle_continue world) sink

theorem idle_leave (i : Invocation) (world : σ) (sink : Sink) :
    ((leave i world).run sink).Idle world :=
  ⟨rfl, fun mode hresult => by cases hresult⟩

theorem idle_sshfs (i : Invocation) (world : σ) (sink : Sink) :
    ((sshfs i world).run sink).Idle world := by
  unfold sshfs
  dsimp only
  split
  · exact idle_tell _ _ _
  · exact ⟨rfl, fun mode hresult => by cases hresult⟩

/-! ## The shells above the config shell -/

theorem exec_isIdle_or_opens : ∀ c ∈ (execCommands : CommandSet Device).commands,
    c.IsIdle ∨ c.Opens ["enable"] enableMode := by
  intro c hc
  have hadds := CommandSet.mem_of_mem_commands_ofList hc
  simp only [List.mem_cons, List.not_mem_nil, or_false] at hadds
  rcases hadds with rfl | rfl | rfl | rfl
  · exact .inr ⟨by decide +kernel, fun _ _ => rfl⟩
  · exact .inl fun _ _ _ => idle_tell _ _ _
  · exact .inl fun _ _ _ => idle_tell _ _ _
  · exact .inl idle_leave

theorem enable_isIdle_or_opens : ∀ c ∈ (enableCommands .self).commands,
    c.IsIdle ∨ c.Opens ["configure", "terminal"] configMode := by
  intro c hc
  have hadds := CommandSet.mem_of_mem_commands_ofList hc
  simp only [List.mem_cons, List.not_mem_nil, or_false] at hadds
  rcases hadds with rfl | rfl | rfl | rfl | rfl | rfl | rfl | rfl | rfl
  · exact .inl idle_leave
  · exact .inl fun _ _ _ => idle_tell _ _ _
  · exact .inl fun _ _ _ => idle_tell _ _ _
  · exact .inl fun _ _ _ => idle_tell _ _ _
  · exact .inl fun _ _ _ => idle_tell _ _ _
  · exact .inl idle_sshfs
  · exact .inl fun _ _ _ => idle_tell _ _ _
  · exact .inr ⟨by decide +kernel, fun _ _ => rfl⟩
  · exact .inl idle_leave

/-! ## The config shell -/

variable {s : Shell Device}

theorem elementsAlong_config
    (hroot : CommandTree.root.withCommands (configCommands .self).commands = .ok s.root) :
    s.root.elementsAlong ["hostname", "NAME"] =
        some [.ofArgspec "hostname" "Set system's network name" false,
          .ofArgspec "NAME" "Name" false] ∧
      s.root.elementsAlong ["interface", "IFNAME", "shutdown"] =
        some [.ofArgspec "interface" "Select an interface" false,
          .ofArgspec "IFNAME" "Interface name" false,
          .ofArgspec "shutdown" "Shut the interface down" true] ∧
      s.root.elementsAlong ["interface", "IFNAME"] =
        some [.ofArgspec "interface" "Select an interface" false,
          .ofArgspec "IFNAME" "Interface name" false] := by
  have hplaces (p : List String) :
      ((CommandTree.root.withCommands (configCommands .self).commands).toOption.bind
        (·.elementsAlong p)) = s.root.elementsAlong p := by
    rw [hroot]
    rfl
  rw [← hplaces, ← hplaces, ← hplaces]
  decide +kernel

theorem exists_word_of_resolve {cs : List (Command σ)} {s : Shell σ}
    (h : CommandTree.Gains .root cs s.root) {line : String} {path : List String}
    {args : List Value} (hline : s.resolve? line = some (path, args)) {places : List Element}
    (hplaces : s.root.elementsAlong path = some places)
    (hplain : ∀ e ∈ places, e.isRecursive = false) {e : Element} {es : List Element}
    (hargs : places.filter Element.isArgument = e :: es) (he : e.converter = some .variable) :
    ∃ name rest, args = .word name :: rest ∧ List.Forall₂ Element.Takes es rest := by
  have htakes := Shell.takes_of_resolve h hline hplaces hplain
  rw [hargs] at htakes
  obtain ⟨v, rest, hv, hrest, rfl⟩ := List.forall₂_cons_left_iff.mp htakes
  obtain ⟨name, rfl⟩ := hv.exists_word he
  exact ⟨name, rest, rfl, hrest⟩

theorem setHostname_configures
    (hroot : CommandTree.root.withCommands (configCommands .self).commands = .ok s.root)
    {line : String} {args : List Value}
    (hline : s.resolve? line = some (["hostname", "NAME"], args)) {d : Device} {c : Configuration}
    (hd : d.Shows c) (sink : Sink) :
    let reply := (setHostname .self ⟨line, args⟩ d).run sink
    reply.world.Shows (c.told (some (["hostname", "NAME"], args))) ∧
      ∀ m, reply.result ≠ .ok (.enter m) := by
  have hgains := gains_withCommands CommandTree.sound_root rfl hroot
  obtain ⟨hplaces, -⟩ := elementsAlong_config hroot
  have hargs : [Element.ofArgspec "hostname" "Set system's network name" false,
      .ofArgspec "NAME" "Name" false].filter Element.isArgument =
        [.ofArgspec "NAME" "Name" false] := by
    decide +kernel
  obtain ⟨name, rest, rfl, -⟩ := exists_word_of_resolve hgains hline hplaces (by decide +kernel)
    hargs (by decide +kernel)
  exact ⟨hd.setHostname name, fun m hm => by cases hm⟩

theorem setInterface_configures
    (hroot : CommandTree.root.withCommands (configCommands .self).commands = .ok s.root)
    {line : String} {path : List String} {args : List Value}
    (hline : s.resolve? line = some (path, args))
    (hpath : path ∈ [["interface", "IFNAME", "shutdown"], ["interface", "IFNAME"]]) {d : Device}
    {c : Configuration} (hd : d.Shows c) (sink : Sink) :
    let reply := (setInterface .self ⟨line, args⟩ d).run sink
    reply.world.Shows (c.told (some (path, args))) ∧ ∀ m, reply.result ≠ .ok (.enter m) := by
  have hgains := gains_withCommands CommandTree.sound_root rfl hroot
  obtain ⟨-, hshutdown, hplain⟩ := elementsAlong_config hroot
  simp only [List.mem_cons, List.not_mem_nil, or_false] at hpath
  rcases hpath with rfl | rfl
  · have hargs : [Element.ofArgspec "interface" "Select an interface" false,
        .ofArgspec "IFNAME" "Interface name" false,
        .ofArgspec "shutdown" "Shut the interface down" true].filter Element.isArgument =
          [.ofArgspec "IFNAME" "Interface name" false,
            .ofArgspec "shutdown" "Shut the interface down" true] := by
      decide +kernel
    obtain ⟨name, rest, rfl, hrest⟩ := exists_word_of_resolve hgains hline hshutdown
      (by decide +kernel) hargs (by decide +kernel)
    obtain ⟨v, rest, hv, -, rfl⟩ := List.forall₂_cons_left_iff.mp hrest
    obtain rfl := hv.eq_keyword (by decide +kernel)
    exact ⟨hd.setInterface name true, fun m hm => by cases hm⟩
  · have hargs : [Element.ofArgspec "interface" "Select an interface" false,
        .ofArgspec "IFNAME" "Interface name" false].filter Element.isArgument =
          [.ofArgspec "IFNAME" "Interface name" false] := by
      decide +kernel
    obtain ⟨name, rest, rfl, hrest⟩ := exists_word_of_resolve hgains hline hplain
      (by decide +kernel) hargs (by decide +kernel)
    obtain rfl := List.forall₂_nil_left_iff.mp hrest
    exact ⟨hd.setInterface name false, fun m hm => by cases hm⟩

/-- **A line in the config shell** makes of the device what it makes of the configuration, and goes
into no mode. -/
theorem config_dispatch
    (hroot : CommandTree.root.withCommands (configCommands .self).commands = .ok s.root)
    {d : Device} {c : Configuration} (hd : d.Shows c) (line : String) (sink : Sink) :
    (s.dispatch line d sink).world.Shows (c.told (s.resolve? line)) ∧
      ∀ m, (s.dispatch line d sink).result ≠ .ok (.enter m) := by
  have hgains := gains_withCommands CommandTree.sound_root rfl hroot
  obtain ⟨hline, hidle⟩ | ⟨cmd, hcmd, path, args, hdenotes, hline, hreply⟩ :=
    Shell.dispatch_cases hgains line d sink
  · rw [hidle.world_eq, hline]
    exact ⟨hd, hidle.stays⟩
  rw [hreply, hline]
  have hadds := CommandSet.mem_of_mem_commands_ofList hcmd
  simp only [List.mem_cons, List.not_mem_nil, or_false] at hadds
  rcases hadds with rfl | rfl | rfl | rfl
  · obtain rfl := List.mem_singleton.mp (hdenotes.mem [["hostname", "NAME"]] (by decide +kernel))
    exact setHostname_configures hroot hline hd sink
  · exact setInterface_configures hroot hline (hdenotes.mem _ (by decide +kernel)) hd sink
  · obtain rfl := List.mem_singleton.mp (hdenotes.mem [["end"]] (by decide +kernel))
    exact ⟨hd, fun m hm => by cases hm⟩
  · obtain rfl := List.mem_singleton.mp (hdenotes.mem [["exit"]] (by decide +kernel))
    exact ⟨hd, fun m hm => by cases hm⟩

/-! ## The shells together -/

theorem shellOf_eq_ok {prompt : String} {set : CommandSet σ} {root : CommandTree (Handler σ)}
    (h : CommandTree.root.withCommands set.commands = .ok root) :
    shellOf prompt set = .ok ⟨root, prompt, []⟩ := by
  rw [shellOf, Shell.withCommands_eq, Shell.empty, h]
  rfl

/-- The exec shell of the router, and the shells below it, one below the other. -/
structure Levels (hostname : String) (exec enable config : Shell Device) : Prop where
  built : Router.exec .self hostname = .ok exec
  enable_mode : exec.mode? enableMode = some enable
  config_mode : enable.mode? configMode = some config
  exec_root : CommandTree.root.withCommands execCommands.commands = .ok exec.root
  enable_root : CommandTree.root.withCommands (enableCommands .self).commands = .ok enable.root
  config_root : CommandTree.root.withCommands (configCommands .self).commands = .ok config.root

/-- **The router has its shells,** whatever its name. -/
theorem exists_levels (hostname : String) :
    ∃ exec enable config, Levels hostname exec enable config := by
  obtain ⟨execRoot, hexec⟩ : ∃ root, CommandTree.root.withCommands
      (execCommands : CommandSet Device).commands = .ok root := by
    decide +kernel
  obtain ⟨enableRoot, henable⟩ : ∃ root, CommandTree.root.withCommands
      (enableCommands .self).commands = .ok root := by
    decide +kernel
  obtain ⟨configRoot, hconfig⟩ : ∃ root, CommandTree.root.withCommands
      (configCommands .self).commands = .ok root := by
    decide +kernel
  let config : Shell Device := ⟨configRoot, hostname ++ "(config)# ", []⟩
  let enable : Shell Device := ⟨enableRoot, hostname ++ "# ", [(configMode, config)]⟩
  let exec : Shell Device := ⟨execRoot, hostname ++ "> ", [(enableMode, enable)]⟩
  refine ⟨exec, enable, config, ?_, rfl, rfl, hexec, henable, hconfig⟩
  rw [Router.exec, shellOf_eq_ok hconfig, shellOf_eq_ok henable, shellOf_eq_ok hexec]
  rfl

variable {hostname : String} {exec enable config : Shell Device}

/-- **A line in the exec shell** leaves the device as it is, and goes into a mode only if it
resolves to `enable`. -/
theorem Levels.exec_dispatch (h : Levels hostname exec enable config) (line : String) (d : Device)
    (sink : Sink) :
    (exec.dispatch line d sink).world = d ∧
      ∀ m, (exec.dispatch line d sink).result = .ok (.enter m) →
        m = enableMode ∧ ∃ args, exec.resolve? line = some (["enable"], args) :=
  Shell.dispatch_of_opens (gains_withCommands CommandTree.sound_root rfl h.exec_root)
    exec_isIdle_or_opens line d sink

/-- **A line in the enable shell** leaves the device as it is, and goes into a mode only if it
resolves to `configure terminal`. -/
theorem Levels.enable_dispatch (h : Levels hostname exec enable config) (line : String) (d : Device)
    (sink : Sink) :
    (enable.dispatch line d sink).world = d ∧
      ∀ m, (enable.dispatch line d sink).result = .ok (.enter m) →
        m = configMode ∧ ∃ args, enable.resolve? line = some (["configure", "terminal"], args) :=
  Shell.dispatch_of_opens (gains_withCommands CommandTree.sound_root rfl h.enable_root)
    enable_isIdle_or_opens line d sink

end Router

end Console
