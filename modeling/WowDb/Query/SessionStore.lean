import WowDb.Query.Raft

/-!
# Web sessions

`query-node/src/meta/session_store.rs`.
-/
namespace WowDb.Query
open WowDb.Lib

structure WebSession where
  token : String
  username : Option String
  createdAt : Int
  expiresAt : Int
  currentDb : Option String
  deriving DecidableEq

namespace WebSession

def sessionTtlHours : Int := 24

def ttl : Int := sessionTtlHours * 3600 * 10 ^ 9

def new (token : String) (username : Option String) (now : Int) : WebSession :=
  ⟨token, username, now, now + ttl, none⟩

def isExpired (s : WebSession) (now : Int) : Bool := decide (s.expiresAt < now)

def renew (s : WebSession) (now : Int) : WebSession := { s with expiresAt := now + ttl }

end WebSession

/-- The JSON text of a session, as the serialisation library writes and reads it. A text that
is no session has an error message. -/
structure SessionCodec where
  toJson : WebSession → String
  fromJson : String → Option WebSession
  message : String → String
  fromJson_toJson : ∀ s, fromJson (toJson s) = some s

def sessionKey (token : String) : String := "/sessions/" ++ token

namespace SessionStore

variable (c : SessionCodec)

def create (sm : MetaStateMachine) (token : String) (username : Option String) (now : Int) :
    MetaStateMachine × WebSession :=
  let session := WebSession.new token username now
  (sm.apply (.upsertKv (sessionKey token) (c.toJson session)), session)

/-- Up to the second Raft operation: what the call will return, and the deletion of an
expired session that it still makes. -/
def get (sm : MetaStateMachine) (token : String) (now : Int) :
    Option WebSession × Option RaftCommand :=
  match sm.get (sessionKey token) with
  | none => (none, none)
  | some json =>
    match c.fromJson json with
    | some s => if s.isExpired now then (none, some (.deleteKv (sessionKey token))) else (some s, none)
    | none => (none, none)

def validate (sm : MetaStateMachine) (token : String) (now : Int) : Bool :=
  (get c sm token now).1.isSome

def load (sm : MetaStateMachine) (token : String) : Except String WebSession :=
  match sm.get (sessionKey token) with
  | none => .error ("세션 없음: " ++ token)
  | some json =>
    match c.fromJson json with
    | some s => .ok s
    | none => .error (c.message json)

def renew (sm : MetaStateMachine) (token : String) (checkedAt renewedAt : Int) :
    Except String RaftCommand := do
  let session ← load c sm token
  if session.isExpired checkedAt then .error ("만료된 세션: " ++ token)
  else .ok (.upsertKv (sessionKey token) (c.toJson (session.renew renewedAt)))

def delete (sm : MetaStateMachine) (token : String) : MetaStateMachine :=
  sm.apply (.deleteKv (sessionKey token))

def setCurrentDb (sm : MetaStateMachine) (token db : String) : Except String RaftCommand := do
  let session ← load c sm token
  .ok (.upsertKv (sessionKey token) (c.toJson { session with currentDb := some db }))

/-- The replicated map, the calls that have read and not yet written, by the command that they
will write, and the tokens whose `delete` has completed. -/
structure Shared where
  sm : MetaStateMachine
  writing : List RaftCommand
  deleted : List String

inductive Action where
  | get (token : String) (now : Int)
  | validate (token : String) (now : Int)
  | renew (token : String) (checkedAt renewedAt : Int)
  | setCurrentDb (token db : String)
  | write (i : Nat)
  | delete (token : String)

def begin (s : Shared) : Except String RaftCommand → Shared
  | .error _ => s
  | .ok cmd => { s with writing := s.writing ++ [cmd] }

def step (s : Shared) : Action → Option Shared
  | .get token now | .validate token now =>
    some { s with writing := s.writing ++ (get c s.sm token now).2.toList }
  | .renew token checkedAt renewedAt => some (begin s (renew c s.sm token checkedAt renewedAt))
  | .setCurrentDb token db => some (begin s (setCurrentDb c s.sm token db))
  | .write i =>
    match s.writing[i]? with
    | some cmd => some { s with sm := s.sm.apply cmd, writing := s.writing.eraseIdx i }
    | none => none
  | .delete token =>
    some { s with sm := delete s.sm token, deleted := token :: s.deleted }

def start (sm : MetaStateMachine) : Shared := ⟨sm, [], []⟩

def LoggedOut (s : Shared) : Prop :=
  ∀ token ∈ s.deleted, ∀ now, (get c s.sm token now).1 = none ∧ validate c s.sm token now = false

def NotDeleted (s : Shared) : Action → Prop
  | .write i => ∀ token ∈ s.deleted, ∀ json, s.writing[i]? ≠ some (.upsertKv (sessionKey token) json)
  | _ => True

def SessionCommand (cmd : RaftCommand) : Prop :=
  (∃ token, cmd = .deleteKv (sessionKey token)) ∨
    ∃ token session, cmd = .upsertKv (sessionKey token) (c.toJson session)

variable {c}

variable {sm : MetaStateMachine} {cmd : RaftCommand}

theorem sessionCommand_get {token : String} {now : Int}
    (writes : (get c sm token now).2 = some cmd) : SessionCommand c cmd := by
  unfold get at writes
  split at writes
  · cases writes
  · split at writes
    · split at writes
      · exact .inl ⟨token, (Option.some.inj writes).symm⟩
      · cases writes
    · cases writes

theorem sessionCommand_renew {token : String} {checkedAt renewedAt : Int}
    (writes : renew c sm token checkedAt renewedAt = .ok cmd) : SessionCommand c cmd := by
  unfold renew at writes
  cases loaded : load c sm token with
  | error e => simp [loaded, bind, Except.bind] at writes
  | ok session =>
    simp only [loaded, bind, Except.bind] at writes
    split at writes
    · cases writes
    · exact .inr ⟨token, session.renew renewedAt, (Except.ok.inj writes).symm⟩

theorem sessionCommand_setCurrentDb {token db : String}
    (writes : setCurrentDb c sm token db = .ok cmd) : SessionCommand c cmd := by
  unfold setCurrentDb at writes
  cases loaded : load c sm token with
  | error e => simp [loaded, bind, Except.bind] at writes
  | ok session =>
    simp only [loaded, bind, Except.bind] at writes
    exact .inr ⟨token, { session with currentDb := some db }, (Except.ok.inj writes).symm⟩

variable {s : Shared}

theorem mem_writing_begin {call : Except String RaftCommand}
    (member : cmd ∈ (begin s call).writing) : cmd ∈ s.writing ∨ call = .ok cmd := by
  cases call with
  | error e => exact .inl member
  | ok added =>
    rcases List.mem_append.mp member with old | new
    · exact .inl old
    · rw [List.mem_singleton.mp new]
      exact .inr rfl

theorem sessionCommands_step {t : Shared} {a : Action}
    (h : ∀ cmd ∈ s.writing, SessionCommand c cmd) (stepped : step c s a = some t) :
    ∀ cmd ∈ t.writing, SessionCommand c cmd := by
  intro cmd member
  cases a with
  | get token now | validate token now =>
    cases stepped
    rcases List.mem_append.mp member with old | new
    · exact h cmd old
    · exact sessionCommand_get (Option.mem_toList.mp new)
  | renew token checkedAt renewedAt =>
    cases stepped
    rcases mem_writing_begin member with old | new
    · exact h cmd old
    · exact sessionCommand_renew new
  | setCurrentDb token db =>
    cases stepped
    rcases mem_writing_begin member with old | new
    · exact h cmd old
    · exact sessionCommand_setCurrentDb new
  | write i =>
    simp only [step] at stepped
    split at stepped
    · cases stepped
      exact h cmd (List.mem_of_mem_eraseIdx member)
    · cases stepped
  | delete token =>
    cases stepped
    exact h cmd member

theorem get_none_iff (sm : MetaStateMachine) (token : String) :
    (∀ now, (get c sm token now).1 = none ∧ validate c sm token now = false) ↔
      ∀ json session, sm.get (sessionKey token) = some json → c.fromJson json ≠ some session := by
  constructor
  · intro none json session stored parsed
    have found := (none session.expiresAt).1
    simp [get, stored, parsed, WebSession.isExpired] at found
  · intro unparsed now
    have nothing : (get c sm token now).1 = none := by
      unfold get
      split
      · rfl
      · rename_i json stored
        cases parsed : c.fromJson json with
        | none => rfl
        | some session => exact absurd parsed (unparsed json session stored)
    exact ⟨nothing, by rw [validate, nothing]; rfl⟩

theorem loggedOut_iff (s : Shared) : LoggedOut c s ↔ ∀ token ∈ s.deleted, ∀ json session,
    s.sm.get (sessionKey token) = some json → c.fromJson json ≠ some session :=
  forall₂_congr fun token _ => get_none_iff s.sm token

theorem loggedOut_write (i : Nat) (known : SessionCommand c cmd) (dead : LoggedOut c s) :
    LoggedOut c { s with sm := s.sm.apply cmd, writing := s.writing.eraseIdx i } ↔
      ∀ token ∈ s.deleted, ∀ json, cmd ≠ .upsertKv (sessionKey token) json := by
  rw [loggedOut_iff] at dead ⊢
  rcases known with ⟨other, rfl⟩ | ⟨other, session, rfl⟩
  · refine iff_of_true ?_ (fun _ _ _ => by simp)
    intro token member json session stored
    simp only [MetaStateMachine.get, MetaStateMachine.apply, OrdMap.get?_erase] at stored
    split at stored
    · cases stored
    · exact dead token member json session stored
  · constructor
    · intro after token member json same
      obtain ⟨sameKey, rfl⟩ := RaftCommand.upsertKv.inj same
      refine after token member (c.toJson session) session ?_ (c.fromJson_toJson session)
      rw [← sameKey, MetaStateMachine.get, MetaStateMachine.apply, OrdMap.get?_insert, if_pos rfl]
    · intro apart token member json other' stored
      have different : sessionKey token ≠ sessionKey other := by
        intro same
        exact apart token member (c.toJson session) (by rw [same])
      simp only [MetaStateMachine.get, MetaStateMachine.apply, OrdMap.get?_insert,
        if_neg different] at stored
      exact dead token member json other' stored

theorem loggedOut_delete (token : String) (dead : LoggedOut c s) :
    LoggedOut c { s with sm := delete s.sm token, deleted := token :: s.deleted } := by
  rw [loggedOut_iff] at dead ⊢
  intro other member json session stored
  simp only [delete, MetaStateMachine.get, MetaStateMachine.apply, OrdMap.get?_erase] at stored
  split at stored
  · cases stored
  · rename_i apart
    rcases List.mem_cons.mp member with rfl | older
    · exact absurd rfl apart
    · exact dead other older json session stored

theorem loggedOut_step {t : Shared} {a : Action} (known : ∀ cmd ∈ s.writing, SessionCommand c cmd)
    (dead : LoggedOut c s) (stepped : step c s a = some t) : LoggedOut c t ↔ NotDeleted s a := by
  cases a with
  | get token now | validate token now =>
    cases stepped
    exact iff_of_true dead trivial
  | renew token checkedAt renewedAt =>
    cases stepped
    refine iff_of_true ?_ trivial
    cases renew c s.sm token checkedAt renewedAt <;> exact dead
  | setCurrentDb token db =>
    cases stepped
    refine iff_of_true ?_ trivial
    cases setCurrentDb c s.sm token db <;> exact dead
  | write i =>
    simp only [step] at stepped
    split at stepped
    · rename_i cmd found
      cases stepped
      rw [loggedOut_write i (known cmd (List.mem_of_getElem? found)) dead, NotDeleted, found]
      simp only [ne_eq, Option.some.injEq]
    · cases stepped
  | delete token =>
    cases stepped
    exact iff_of_true (loggedOut_delete token dead) trivial

variable (c)

/-- For calls on any tokens in any interleaving. -/
theorem loggedOut_iff_notDeleted (sm : MetaStateMachine) (acts : List Action) :
    Run.EveryState (step c) (LoggedOut c) (start sm) acts ↔
      Run.EveryStep (step c) NotDeleted (start sm) acts :=
  Run.everyState_iff_everyStep (G := fun _ _ => True)
    (fun s => ∀ cmd ∈ s.writing, SessionCommand c cmd)
    (fun _ _ _ known _ stepped => sessionCommands_step known stepped)
    (fun _ _ _ known _ dead stepped => loggedOut_step known dead stepped)
    acts (start sm) (by simp [start]) (by simp [LoggedOut, start])
    (Run.everyStep_of_forall (fun _ _ => trivial) _ _)

end SessionStore

namespace SessionJson
open Json

def sessionToJson (s : WebSession) : Json :=
  record [("token", ofString s.token), ("username", ofOption ofString s.username),
    ("created_at", .num s.createdAt), ("expires_at", .num s.expiresAt),
    ("current_db", ofOption ofString s.currentDb)]

def sessionFromJson (v : Json) : Option WebSession := do
  let token ← (← field "token" v) |> asString
  let username ← asOption asString ((field "username" v).getD .null)
  let createdAt ← (← field "created_at" v) |> asInt
  let expiresAt ← (← field "expires_at" v) |> asInt
  let currentDb ← asOption asString ((field "current_db" v).getD .null)
  some ⟨token, username, createdAt, expiresAt, currentDb⟩

end SessionJson

def jsonSession : SessionCodec where
  toJson s := String.ofList (Json.print (SessionJson.sessionToJson s))
  fromJson text := (Json.parse text.toList).bind SessionJson.sessionFromJson
  message _ := "missing field or invalid type"
  fromJson_toJson s := by
    rw [String.toList_ofList, Json.parse_print, Option.bind_some]
    simp [SessionJson.sessionFromJson, SessionJson.sessionToJson, Json.field_record, List.lookup,
      Json.asInt]

namespace SessionStore

def loggedIn : MetaStateMachine := (create jsonSession .default "tok" (some "alice") 0).1

theorem exec_renew_delete_write (c : SessionCodec) :
    ∃ t, Run.exec (step c) (start (create c .default "tok" (some "alice") 0).1)
      [.renew "tok" 5 5, .delete "tok", .write 0] = some t ∧
      "tok" ∈ t.deleted ∧ validate c t.sm "tok" 6 = true := by
  generalize stored : (create c .default "tok" (some "alice") 0).1 = sm
  have loaded : load c sm "tok" = .ok (WebSession.new "tok" (some "alice") 0) := by
    simp [load, ← stored, create, MetaStateMachine.get, MetaStateMachine.apply, OrdMap.get?_insert,
      c.fromJson_toJson]
  let renewal : RaftCommand := .upsertKv (sessionKey "tok")
    (c.toJson ((WebSession.new "tok" (some "alice") 0).renew 5))
  have renewed : renew c sm "tok" 5 5 = .ok renewal := by
    rw [renew, loaded]
    rfl
  refine ⟨⟨(delete sm "tok").apply renewal, [], ["tok"]⟩,
    by simp [Run.exec, step, start, renewed, begin], by simp, ?_⟩
  simp [renewal, validate, get, MetaStateMachine.get, MetaStateMachine.apply, OrdMap.get?_insert,
    c.fromJson_toJson, WebSession.renew, WebSession.isExpired, WebSession.ttl,
    WebSession.sessionTtlHours]

theorem renewal_revives_deleted : ∃ t, Run.exec (step jsonSession) (start loggedIn)
      [.renew "tok" 5 5, .delete "tok", .write 0] = some t ∧
      "tok" ∈ t.deleted ∧ validate jsonSession t.sm "tok" 6 = true :=
  exec_renew_delete_write jsonSession

end SessionStore

end WowDb.Query
