/-
**What administration requests change.**

A request can be turned down for its key, its path, its method, its body, a blank role, the file
that it makes the host read, or the trees that come of it. Each time the session stays as it is;
otherwise roles or catalog change together with the routes.

* `Settings.valid_iff`: what the validation of settings guarantees;
* `Admin.replaceRoles_cases`, `Admin.reloadCatalog_cases`: a resource turns the host to what the
  request asks for, or refuses;
* `Admin.routed_cases`: only these two resources change a session, and only with status 200;
* `Admin.sound_served`: no run of visits gives a viewer a blank role.
-/

import Wayfinder.Admin.Service
import Wayfinder.Proofs.Lifecycle
import Wayfinder.Proofs.Startup

namespace Wayfinder

open Wayfinder.Text

/-! ### Settings without problems -/

/-- The settings make sense. -/
structure Settings.Valid (settings : Settings) : Prop where
  hops : settings.router.maxRedirectHops ≠ 0
  roles : ∀ role ∈ settings.router.defaultRoles, isBlank role = false
  logLevel : isLogLevel settings.observability.logLevel = true
  metrics : settings.observability.metricsEnabled = true →
    Endpoint.isAddress settings.observability.metricsAddress = true
  admin : settings.admin.enabled = true → Endpoint.isAddress settings.admin.bindAddress = true
  apiKey : ∀ key, settings.admin.apiKey = some key → isBlank key = false
  watch : settings.catalog.watch = true → settings.catalog.path.isSome = true

theorem Settings.valid_iff {settings : Settings} : settings.problems = [] ↔ settings.Valid := by
  have keys : settings.admin.apiKey.any isBlank = false ↔
      ∀ key, settings.admin.apiKey = some key → isBlank key = false := by
    cases settings.admin.apiKey <;> simp
  simp only [problems, problemIf, List.append_eq_nil_iff, ite_eq_right_iff, reduceCtorEq, imp_false,
    Bool.not_eq_true, List.any_eq_false, keys]
  constructor
  · rintro ⟨⟨⟨⟨⟨⟨hops, roles⟩, level⟩, metrics⟩, admin⟩, key⟩, watch⟩
    refine ⟨by simpa using hops, by simpa using roles, by simpa using level, ?_, ?_, key, ?_⟩
    · simpa using metrics
    · simpa using admin
    · simpa [Option.isSome_iff_ne_none] using watch
  · intro valid
    refine ⟨⟨⟨⟨⟨⟨?_, by simpa using valid.roles⟩, ?_⟩, ?_⟩, ?_⟩, valid.apiKey⟩, ?_⟩
    · simpa using valid.hops
    · simpa using valid.logLevel
    · simpa using valid.metrics
    · simpa using valid.admin
    · simpa [Option.isSome_iff_ne_none] using valid.watch

/-! ### Changes and their answers -/

namespace Session

variable {session next : Session} {catalog : Catalog} {roles : RoleSet}

/-- The answer of a change is the number of the routes that it makes live. -/
theorem commits_of_change {generation : Nat}
    (changed : session.change catalog roles = (.ok generation, next)) :
    generation = session.router.live.generation + 1 ∧ session.Commits next catalog roles := by
  have number : generation = session.router.live.generation + 1 := by
    simp only [change] at changed
    generalize (visibleForest session.baseline catalog roles).map Forest.roots = built at changed
    have resets := session.router.resetWith_cases id built
    generalize session.router.resetWith id built = result at resets changed
    cases resets with
    | accepted number => exact (Except.ok.inj (Prod.mk.inj changed).1).symm.trans number
    | unbuilt => cases changed
    | refused => cases changed
  refine ⟨number, ?_⟩
  rcases session.change_cases catalog roles with ⟨_, -, commits⟩ | ⟨defect, rejected, -⟩
  · rw [changed] at commits
    exact commits
  · rw [changed] at rejected
    cases rejected

theorem keeps_of_change {defect : Defect}
    (changed : session.change catalog roles = (.error defect, next)) : session.Keeps next := by
  rcases session.change_cases catalog roles with ⟨_, accepted, -⟩ | ⟨_, -, keeps, -⟩
  · rw [changed] at accepted
    cases accepted
  · rw [changed] at keeps
    exact keeps

end Session

namespace Admin

/-! ### What becomes of a host -/

/-- The host is as before, up to what its router has counted. -/
structure HostKeeps (host next : Host) : Prop where
  session : host.session.Keeps next.session
  source : next.source = host.source
  apiKey : next.apiKey = host.apiKey

theorem HostKeeps.refl (host : Host) : HostKeeps host host := ⟨.refl _, rfl, rfl⟩

/-- The host goes over to a catalog and to roles, and the answer is the number of the new routes. -/
structure Turns (host : Host) (catalog : Catalog) (roles : RoleSet) (answer : Response × Host) :
    Prop where
  response : answer.1 = .ofGeneration (host.session.router.live.generation + 1)
  commits : host.session.Commits answer.2.session catalog roles
  source : answer.2.source = host.source
  apiKey : answer.2.apiKey = host.apiKey

/-- The statuses with which a request that passes is turned down. -/
def refusals : List Nat := [400, 404, 405, 413, 415, 422, 500]

/-- The answer is a refusal, and the host is as before. -/
structure Refuses (host : Host) (answer : Response × Host) : Prop where
  status : answer.1.status ∈ refusals
  keeps : HostKeeps host answer.2

theorem refuses_unchanged (host : Host) {response : Response}
    (status : response.status ∈ refusals) :
    Refuses host (response, host) := ⟨status, .refl host⟩

/-! ### The resources that change something -/

theorem replaceRoles_cases (host : Host) (request : Request) :
    (∃ roles, rolesOfBody request.body = .ok roles ∧ (∀ role ∈ roles, isBlank role = false) ∧
      Turns host host.session.catalog (.ofList roles) (replaceRoles host request)) ∨
    Refuses host (replaceRoles host request) := by
  unfold replaceRoles
  split
  · exact .inr (refuses_unchanged host (by decide))
  split
  · exact .inr (refuses_unchanged host (by decide))
  split
  · exact .inr (refuses_unchanged host (by decide))
  · exact .inr (refuses_unchanged host (by decide))
  next roles read =>
    split
    · exact .inr (refuses_unchanged host (by decide))
    next full =>
      split
      · next generation session changed =>
        obtain ⟨rfl, commits⟩ := Session.commits_of_change changed
        refine .inl ⟨roles, read, ?_, rfl, commits, rfl, rfl⟩
        simpa using full
      · next defect session changed =>
        exact .inr ⟨(by decide : 422 ∈ refusals), Session.keeps_of_change changed, rfl, rfl⟩

theorem reloadCatalog_cases (host : Host) (folder : Folder) :
    (∃ catalog, host.source.load folder = .ok catalog ∧
      Turns host catalog host.session.roles (reloadCatalog host folder)) ∨
    Refuses host (reloadCatalog host folder) := by
  unfold reloadCatalog Host.reload Session.reload
  cases loaded : host.source.load folder with
  | error fault =>
    refine .inr ⟨?_, Session.keeps_counted _ _, rfl, rfl⟩
    show sourceStatus fault ∈ refusals
    cases fault with
    | unreadable fault => exact (by decide : 500 ∈ refusals)
    | invalid fault => exact (by decide : 422 ∈ refusals)
  | ok catalog =>
    unfold Session.applyCatalog Session.setCatalog
    cases changed : host.session.change catalog host.session.roles with
    | mk result session =>
      cases result with
      | ok generation =>
        obtain ⟨rfl, commits⟩ := Session.commits_of_change changed
        simp only [changed]
        exact .inl ⟨catalog, rfl, rfl, commits.keeps (Session.keeps_counted _ _), rfl, rfl⟩
      | error defect =>
        simp only [changed]
        refine .inr ⟨(by decide : 422 ∈ refusals), ⟨?_, rfl, rfl⟩⟩
        exact (Session.keeps_of_change changed).trans (Session.keeps_counted _ _)

/-! ### Where resources are found -/

/-- The path of a resource. -/
def Resource.path : Resource → String
  | .status => "/admin/status"
  | .routes => "/admin/routes"
  | .resolution => "/admin/resolve"
  | .menu => "/admin/menu"
  | .roles => "/admin/roles"
  | .reload => "/admin/reload"

theorem Resource.ofPath?_eq_some_iff {path : String} {resource : Resource} :
    Resource.ofPath? path = some resource ↔ path = resource.path := by
  constructor
  · intro found
    unfold Resource.ofPath? at found
    split at found <;> cases found <;> rfl
  · rintro rfl
    cases resource <;> rfl

theorem Resource.accepts_iff {resource : Resource} {method : String} :
    resource.accepts method = true ↔
      method = resource.method ∨ method = "HEAD" ∧ resource.method = "GET" := by
  simp [Resource.accepts]

/-- The request asks for a resource with the method of that resource. -/
def Request.AsksFor (request : Request) (resource : Resource) : Prop :=
  request.method = resource.method ∧ request.target.path = resource.path

theorem Request.AsksFor.unique {request : Request} {first second : Resource}
    (asks : request.AsksFor first) (other : request.target.path = second.path) :
    first = second := by
  have found := Resource.ofPath?_eq_some_iff.mpr asks.2
  rw [Resource.ofPath?_eq_some_iff.mpr other] at found
  exact (Option.some.inj found).symm

/-! ### Any request -/

/-- What a request that passes comes to: the roles of its body are held, the catalog that the host
reads is shown, something is read, or the request is refused. -/
inductive Outcome (host : Host) (folder : Folder) (request : Request) (answer : Response × Host) :
    Prop
  | roles {roles : List Role} (asks : request.AsksFor .roles)
      (read : rolesOfBody request.body = .ok roles) (full : ∀ role ∈ roles, isBlank role = false)
      (turns : Turns host host.session.catalog (.ofList roles) answer)
  | catalog {catalog : Catalog} (asks : request.AsksFor .reload)
      (read : host.source.load folder = .ok catalog)
      (turns : Turns host catalog host.session.roles answer)
  | reading {resource : Resource} (there : request.target.path = resource.path)
      (reads : resource.method = "GET") (status : answer.1.status = 200)
      (keeps : HostKeeps host answer.2)
  | refused (refuses : Refuses host answer)

theorem answer_cases {host : Host} {folder : Folder} {request : Request} {resource : Resource}
    (there : request.target.path = resource.path) (accepted : resource.accepts request.method) :
    Outcome host folder request (resource.answer host folder request) := by
  have method := Resource.accepts_iff.mp accepted
  cases resource with
  | status => exact .reading there rfl rfl (.refl host)
  | routes => exact .reading there rfl rfl (.refl host)
  | menu => exact .reading there rfl rfl (.refl host)
  | resolution =>
    show Outcome host folder request (resolveQuery host request.target.query)
    unfold resolveQuery
    split
    · exact .refused (refuses_unchanged host (by decide))
    · exact .reading there rfl rfl ⟨Session.keeps_counted _ _, rfl, rfl⟩
  | roles =>
    have puts : request.method = "PUT" := by simpa [Resource.method] using method
    rcases replaceRoles_cases host request with ⟨roles, read, full, turns⟩ | refuses
    · exact .roles ⟨puts, there⟩ read full turns
    · exact .refused refuses
  | reload =>
    have posts : request.method = "POST" := by simpa [Resource.method] using method
    rcases reloadCatalog_cases host folder with ⟨catalog, read, turns⟩ | refuses
    · exact .catalog ⟨posts, there⟩ read turns
    · exact .refused refuses

/-- Nothing is changed by a request whose answer comes without its body. -/
theorem Outcome.withoutBody {host next : Host} {folder : Folder} {request : Request}
    {response : Response} (outcome : Outcome host folder request (response, next))
    (head : request.method = "HEAD") :
    Outcome host folder request (response.withoutBody, next) := by
  cases outcome with
  | roles asks => exact absurd (head.symm.trans asks.1) (by decide)
  | catalog asks => exact absurd (head.symm.trans asks.1) (by decide)
  | reading there reads status keeps => exact .reading there reads status keeps
  | refused refuses => exact .refused ⟨refuses.status, refuses.keeps⟩

/-- **A request that passes changes the roles, the catalog or nothing.** -/
theorem routed_cases (host : Host) (folder : Folder) (request : Request) :
    Outcome host folder request (routed host folder request) := by
  unfold routed
  split
  · exact .refused (refuses_unchanged host (by decide))
  next resource found =>
    split
    · exact .refused (refuses_unchanged host (by decide))
    next accepted =>
      have outcome : Outcome host folder request (resource.answer host folder request) :=
        answer_cases (Resource.ofPath?_eq_some_iff.mp found) (by simpa using accepted)
      by_cases head : request.method = "HEAD"
      · simp only [head, if_true]
        exact outcome.withoutBody head
      · simp only [head, if_false]
        exact outcome

theorem respond_of_carries {host : Host} {folder : Folder} {request : Request}
    (carried : request.carries host.apiKey = true) :
    respond host folder request = routed host folder request := by
  unfold respond
  rw [carried]
  rfl

theorem respond_of_not_carries {host : Host} {folder : Folder} {request : Request}
    (keyless : request.carries host.apiKey = false) :
    respond host folder request = ({ status := 401 }, host) := by
  unfold respond
  rw [keyless]
  rfl

/-! ### Runs of requests -/

/-- A message that arrives while the folder of the host has these files. -/
structure Visit where
  folder : Folder
  message : Message

/-- The host after visits. -/
def served (host : Host) : List Visit → Host
  | [] => host
  | visit :: later => served (respond host visit.folder visit.message.request).2 later

/-- What visits leave alone: where the catalog comes from, the key, and that no role is blank. -/
structure Sound (settings : Settings) (host : Host) : Prop where
  source : host.source = settings.catalog
  apiKey : host.apiKey = settings.admin.apiKey
  roles : ∀ role ∈ host.session.roles.members, isBlank role = false

section Run

variable {settings : Settings} {host : Host}

/-- A host starts with the default roles, which the validation of the settings has looked at. -/
theorem sound_of_start {folder : Folder} (valid : settings.problems = [])
    (started : Host.start settings folder = .ok host) : Sound settings host := by
  obtain ⟨session, own, made⟩ := bind_eq_ok_iff.mp started
  obtain rfl := pure_eq_ok_iff.mp made
  refine ⟨rfl, rfl, ?_⟩
  intro role held
  rw [(Session.of_ofSettings own).2.2.1, RouterSettings.roles, RoleSet.mem_members_ofList] at held
  exact (Settings.valid_iff.mp valid).roles role held

theorem Sound.of_keeps {next : Host} (sound : Sound settings host) (keeps : HostKeeps host next) :
    Sound settings next where
  source := keeps.source.trans sound.source
  apiKey := keeps.apiKey.trans sound.apiKey
  roles := by
    rw [keeps.session.roles]
    exact sound.roles

theorem Sound.of_turns {catalog : Catalog} {roles : RoleSet} {answer : Response × Host}
    (sound : Sound settings host) (turns : Turns host catalog roles answer)
    (full : ∀ role ∈ roles.members, isBlank role = false) : Sound settings answer.2 where
  source := turns.source.trans sound.source
  apiKey := turns.apiKey.trans sound.apiKey
  roles := by
    rw [turns.commits.roles]
    exact full

theorem sound_respond (sound : Sound settings host) (folder : Folder) (request : Request) :
    Sound settings (respond host folder request).2 := by
  cases carried : request.carries host.apiKey with
  | false =>
    rw [respond_of_not_carries carried]
    exact sound
  | true =>
    rw [respond_of_carries carried]
    cases routed_cases host folder request with
    | roles asks read full turns =>
      exact sound.of_turns turns fun role held => full role (RoleSet.mem_members_ofList.mp held)
    | catalog asks read turns => exact sound.of_turns turns sound.roles
    | reading there reads status keeps => exact sound.of_keeps keeps
    | refused refuses => exact sound.of_keeps refuses.keeps

/-- **No run of visits gives a viewer a blank role**, or moves the key or the source. -/
theorem sound_served (visits : List Visit) :
    ∀ {host : Host}, Sound settings host → Sound settings (served host visits) := by
  induction visits with
  | nil =>
    intro host sound
    exact sound
  | cons visit later ih =>
    intro host sound
    exact ih (sound_respond sound visit.folder visit.message.request)

end Run

/-- Settings whose administration service asks for a key. -/
def settingsWithKey (key : String) : Settings where
  admin := { apiKey := some key }

/-- A message that carries a key, with a body that is said to be JSON. -/
def messageWithKey (method address key : String) (body : List UInt8) : Message where
  method := method
  address := address
  headers := [⟨"Authorization", Utf8.octets ("Bearer " ++ key)⟩,
    ⟨"Content-Type", "application/json"⟩]
  body := body

/-- A visit that makes the viewer an administrator. -/
def promotion : Visit where
  folder := {}
  message := messageWithKey "PUT" "/admin/roles" "key" "\x7b\"roles\":[\"admin\"]\x7d"

end Admin

end Wayfinder
