import Console.Proofs.Shell.Resolve
import Console.Router
import Mathlib.Logic.Function.Basic

/-!
# The configuration of the router

What the config shell has been told, apart from how the device keeps it.

* `Configuration`, `Configuration.told`: a host name and interfaces by name, and what a line makes
  of them, by what it resolves to; `Configuration.toldAll`: what some lines make of them;
* `Device.Shows`: a device that is configured so;
* **`Shows.setHostname`**, **`Shows.setInterface`**: setting one thing on the device.
-/

namespace Console

open Text

/-- A host name, and for each name of an interface whether it is shut down, if there is one. -/
structure Configuration where
  hostname : String
  interfaces : String → Option Bool

namespace Configuration

/-- No interfaces. -/
def named (hostname : String) : Configuration := ⟨hostname, fun _ => none⟩

/-- Sets an interface, in place of what it was set to before. -/
def withInterface (c : Configuration) (name : String) (shutdown : Bool) : Configuration :=
  { c with interfaces := Function.update c.interfaces name (some shutdown) }

/-- What a line makes of a configuration, by the path and the arguments that it resolves to. -/
def told (c : Configuration) : Option (List String × List Value) → Configuration
  | some (["hostname", "NAME"], name :: _) => { c with hostname := name.text }
  | some (["interface", "IFNAME"], name :: _) => c.withInterface name.text false
  | some (["interface", "IFNAME", "shutdown"], name :: _) => c.withInterface name.text true
  | _ => c

/-- What some lines of a shell make of a configuration, one after another. -/
def toldAll {σ : Type} (shell : Shell σ) (c : Configuration) (lines : List String) :
    Configuration :=
  lines.foldl (fun c line => c.told (shell.resolve? line)) c

theorem toldAll_nil {σ : Type} (shell : Shell σ) (c : Configuration) :
    toldAll shell c [] = c := by
  rw [toldAll, List.foldl_nil]

theorem toldAll_singleton {σ : Type} (shell : Shell σ) (c : Configuration) (line : String) :
    toldAll shell c [line] = c.told (shell.resolve? line) := by
  rw [toldAll, List.foldl_cons, List.foldl_nil]

theorem toldAll_append {σ : Type} (shell : Shell σ) (c : Configuration) (ls ms : List String) :
    toldAll shell c (ls ++ ms) = toldAll shell (toldAll shell c ls) ms :=
  List.foldl_append

end Configuration

namespace Device

/-- The device is configured so: its interfaces are those of the configuration, in the order of
their names. -/
structure Shows (d : Device) (c : Configuration) : Prop where
  hostname_eq : d.hostname = c.hostname
  interfaces_eq : ∀ name, d.interfaces.lookup name = c.interfaces name
  ascending : d.interfaces.Pairwise fun i j => i.1 < j.1

theorem shows_named (hostname : String) : (named hostname).Shows (.named hostname) :=
  ⟨rfl, fun _ => rfl, .nil⟩

/-- **Setting the host name of a device.** -/
theorem Shows.setHostname {d : Device} {c : Configuration} (h : d.Shows c) (hostname : String) :
    { d with hostname }.Shows { c with hostname } :=
  ⟨rfl, h.interfaces_eq, h.ascending⟩

/-- **Setting an interface of a device.** -/
theorem Shows.setInterface {d : Device} {c : Configuration} (h : d.Shows c) (name : String)
    (shutdown : Bool) : (d.setInterface name shutdown).Shows (c.withInterface name shutdown) where
  hostname_eq := h.hostname_eq
  interfaces_eq other := by
    rw [Device.setInterface, lookup_insertByKey, h.interfaces_eq]
    exact (Function.update_apply c.interfaces name (some shutdown) other).symm
  ascending := pairwise_insertByKey h.ascending

end Device

end Console
