import CssLab.Lib.Paths
import CssLab.Web.Connection

namespace CssLab.Web

open Block Http Words Paths

/-- A value of `HOME` that `main` can append to. -/
structure Home where
  bytes : List UInt8
  nonzero : 0 ∉ bytes
  fits : bytes.length + (text "/mywebsite").length < 256

/-- `web_root` -/
def Home.webRoot (home : Home) : List UInt8 := home.bytes ++ text "/mywebsite"

/-- The directory that `web_root` is made in. -/
def Home.dir (home : Home) (cwd : List (List UInt8)) : List (List UInt8) :=
  resolve cwd (home.bytes ++ [47])

/-- What stands in `fullpath` behind that directory: the path of a request has no
slash of its own in front, and `snprintf` cuts it. -/
def Home.below (home : Home) (path : List UInt8) : List UInt8 :=
  (text "mywebsite" ++ path).take (254 - home.bytes.length)

/-- A request to open or to remove a file, whose words fit their arrays. -/
def Asks (request path : List UInt8) : Prop :=
  ∃ method rest, words isspace request = method :: path :: rest ∧ method.length < 16 ∧
    path.length < 128 ∧
      (strcasecmp method (text "GET") ∨ strcasecmp method (text "DELETE"))

def Reaches (events : List Event) (path : List UInt8) : Prop :=
  .fopen path ∈ events ∨ .remove path ∈ events

/-- From the directory that `web_root` is in, the path goes up some way and then down
again through the same names to `mywebsite`. -/
def Stays (home : Home) (cwd : List (List UInt8)) (path : List UInt8) : Prop :=
  let way := Way.along (steps (home.below path))
  (home.dir cwd).drop ((home.dir cwd).length - way.ups) ++ [text "mywebsite"] <+: way.names

section Root

variable (home : Home) (cwd : List (List UInt8))

theorem resolve_webRoot : resolve cwd home.webRoot = home.dir cwd ++ [text "mywebsite"] :=
  resolve_slash cwd home.bytes (text "mywebsite")

theorem resolve_fullpath (path : List UInt8) :
    resolve cwd (snprintf 256 (home.webRoot ++ path)) =
      (Way.along (steps (home.below path))).apply (home.dir cwd) := by
  have fits := home.fits
  have ten : (text "/mywebsite").length = 10 := rfl
  have split : home.webRoot ++ path = home.bytes ++ 47 :: (text "mywebsite" ++ path) :=
    List.append_assoc ..
  have room : 256 - 1 - home.bytes.length = 254 - home.bytes.length + 1 := by omega
  rw [snprintf, split, List.take_append, List.take_of_length_le (by omega), room,
    List.take_succ_cons, resolve_slash, walk_eq]
  rfl

theorem stays_iff (path : List UInt8) :
    resolve cwd home.webRoot <+: resolve cwd (snprintf 256 (home.webRoot ++ path)) ↔
      Stays home cwd path := by
  rw [resolve_webRoot, resolve_fullpath]
  exact Way.below_iff ..

end Root

section Reach

variable (webRoot : List UInt8)

theorem serveGet_reaches (ran : serveGet files frame fullpath clientSock = some events) :
    Reaches events path ↔ path = fullpath := by
  rw [serveGet] at ran
  cases found : files fullpath with
  | none =>
    rw [found] at ran
    cases ran
    simp [Reaches]
  | some content =>
    rw [found] at ran
    obtain ⟨body, -, same⟩ := Option.bind_eq_some_iff.mp ran
    cases same
    simp [Reaches]

theorem serveMethod_reaches
    (ran : serveMethod webRoot files frame method path clientSock = some events) :
    Reaches events fullpath ↔ fullpath = snprintf 256 (webRoot ++ path) ∧
      (strcasecmp method (text "GET") ∨ strcasecmp method (text "DELETE")) := by
  rw [serveMethod] at ran
  by_cases get : strcasecmp method (text "GET")
  · rw [if_pos get] at ran
    rw [serveGet_reaches ran]
    simp [get]
  · rw [if_neg get] at ran
    by_cases delete : strcasecmp method (text "DELETE")
    · rw [if_pos delete] at ran
      cases ran
      simp [Reaches, delete]
    · rw [if_neg delete] at ran
      cases ran
      simp [Reaches, get, delete]

/-- A run reaches the file that the request asks for, and no other. -/
theorem serveClient_reaches
    (ran : serveClient webRoot files frame (some arrived) clientSock = some events) :
    Reaches events fullpath ↔
      ∃ path, Asks (seen arrived) path ∧ fullpath = snprintf 256 (webRoot ++ path) := by
  have bad : ¬Reaches [.write clientSock badRequest, .close clientSock] fullpath := by
    simp [Reaches]
  rw [serveClient_some] at ran
  simp only [Asks]
  match found : words isspace (seen arrived) with
  | [] =>
    rw [found] at ran
    cases ran
    exact iff_of_false bad (by simp)
  | [method] =>
    simp only [found] at ran
    split at ran
    · cases ran
      exact iff_of_false bad (by simp)
    · cases ran
  | method :: path :: rest =>
    simp only [found] at ran
    split at ran
    · rename_i fits
      rw [serveMethod_reaches webRoot ran]
      constructor
      · rintro ⟨same, asked⟩
        exact ⟨path, ⟨method, rest, rfl, fits.1, fits.2, asked⟩, same⟩
      · rintro ⟨_, ⟨_, _, same, _, _, asked⟩, rfl⟩
        cases same
        exact ⟨rfl, asked⟩
    · cases ran

theorem serveClient_runs (frame : Frame) (asks : Asks (seen arrived) path) (clientSock : Nat) :
    ∃ events, serveClient webRoot (fun _ => none) frame (some arrived) clientSock =
      some events := by
  obtain ⟨method, rest, found, fits, fits', asked⟩ := asks
  simp only [serveClient_some, found, if_pos (And.intro fits fits'), serveMethod]
  by_cases get : strcasecmp method (text "GET")
  · exact ⟨_, if_pos get⟩
  · rw [if_neg get, if_pos (asked.resolve_left get)]
    exact ⟨_, rfl⟩

end Reach

/-- The server stays inside its root exactly for the requests whose path does. -/
theorem inside_root_iff (home : Home) (cwd : List (List UInt8)) (arrived : List UInt8) :
    (∀ files frame clientSock events path,
      serveClient home.webRoot files frame (some arrived) clientSock = some events →
        Reaches events path → resolve cwd home.webRoot <+: resolve cwd path) ↔
      ∀ path, Asks (seen arrived) path → Stays home cwd path := by
  constructor
  · intro inside path asks
    have frame : Frame := ⟨.zero _, .zero _, .zero _, .zero _⟩
    obtain ⟨events, ran⟩ := serveClient_runs home.webRoot frame asks 4
    rw [← stays_iff]
    apply inside _ frame 4 events _ ran
    exact (serveClient_reaches home.webRoot ran).mpr ⟨path, asks, rfl⟩
  · intro stay files frame clientSock events fullpath ran reached
    obtain ⟨path, asks, rfl⟩ := (serveClient_reaches home.webRoot ran).mp reached
    exact (stays_iff home cwd path).mpr (stay path asks)

/-- Two dots open a file that is beside the root. -/
theorem dots_outside :
    ¬ ∀ (home : Home) (cwd : List (List UInt8)) (arrived : List UInt8) (files : Files)
      (frame : Frame) (clientSock : Nat) (events : List Event) (path : List UInt8),
        serveClient home.webRoot files frame (some arrived) clientSock = some events →
          Reaches events path → resolve cwd home.webRoot <+: resolve cwd path := by
  intro inside
  have frame : Frame := ⟨.zero _, .zero _, .zero _, .zero _⟩
  have ran : serveClient (text "/root/mywebsite") (fun _ => none) frame
      (some (text "GET /../.ssh/id_rsa HTTP/1.1\r\n\r\n")) 4 =
        some [.fopen (text "/root/mywebsite/../.ssh/id_rsa")] := by
    rw [serveClient_some]
    rfl
  have within := inside ⟨text "/root", by decide, by decide⟩ [] _ _ frame 4 _
    (text "/root/mywebsite/../.ssh/id_rsa") ran (.inl (List.mem_singleton_self _))
  revert within
  decide

end CssLab.Web
