/-
# The messages screen

`TeamViewController.swift`: the reference the screen takes when it loads, the
messages it fetches and the message it posts.
-/

import Teamstuff.Model.Records
import Teamstuff.Controller.EventsViewController

namespace Teamstuff

/-- `TeamViewController`. -/
structure TeamViewController where
  ref : FPath
  messages : List Message
deriving DecidableEq

namespace TeamViewController

/-- `viewDidLoad`, up to the registration of the observer. -/
def viewDidLoad (teamIdGlobal : String) : Except NSException TeamViewController := do
  let teams ← FPath.child [] "Teams"
  let team ← teams.child teamIdGlobal
  return { ref := ← team.child "Messages", messages := [] }

/-- The callback of `fetchMessages`. -/
def fetchMessages {ε : Type} (decode : Value → Except ε Message) (snapshot : Node)
    (vc : TeamViewController) : TeamViewController :=
  match decodeChildren decode snapshot with
  | .ok fetchedMessages => { vc with messages := fetchedMessages.reverse }
  | .error _ => vc

/-- The message `unwindToMessages(sender:)` makes of the text, for the user who is signed
in; `now` is the reading of the device's clock. -/
def unwindToMessages (message displayName uid : String) (now : Date) : Message where
  message := message
  author := displayName
  authorId := uid
  postDate := now

/-- `addMessage(message:)` with the key `childByAutoId` made up. -/
def addMessage (message : Message) (key : String) (vc : TeamViewController) :
    Except NSException Write := do
  (← vc.ref.child key).setValue message.encode

/-- The reference `viewDidLoad` takes. -/
theorem viewDidLoad_eq_ok {teamId : String} {vc : TeamViewController} :
    viewDidLoad teamId = .ok vc ↔ isValidPathString teamId = true ∧
      vc = { ref := ["Teams"] ++ FPath.initWith teamId ++ ["Messages"], messages := [] } := by
  unfold viewDidLoad
  rw [FPath.child_of_isValidKey [] (s := "Teams") (by decide), Except.ok_bind]
  simp only [Except.bind_eq_ok, FPath.child_eq_ok]
  constructor
  · rintro ⟨_, ⟨hid, rfl⟩, _, ⟨_, rfl⟩, hvc⟩
    exact ⟨hid, (Except.ok.inj hvc).symm⟩
  · rintro ⟨hid, rfl⟩
    exact ⟨_, ⟨hid, rfl⟩, _, ⟨by decide, rfl⟩, rfl⟩

/-- A message is written below the reference of the screen. -/
theorem addMessage_below {message : Message} {key : String} {vc : TeamViewController} {w : Write}
    (h : vc.addMessage message key = .ok w) : vc.ref <+: w.path := by
  obtain ⟨p, hp, h⟩ := Except.bind_eq_ok.1 h
  obtain ⟨_, rfl⟩ := FPath.child_eq_ok.1 hp
  obtain ⟨_, _, rfl⟩ := FPath.setValueInternal_eq_ok.1 h
  exact List.prefix_append _ _

theorem fetchMessages_messages {ε : Type} (decode : Value → Except ε Message) (snapshot : Node)
    (vc : TeamViewController) :
    (vc.fetchMessages decode snapshot).messages =
      listAfter decode List.reverse snapshot vc.messages := by
  unfold fetchMessages listAfter
  cases decodeChildren decode snapshot <;> rfl

theorem fetchMessages_ref {ε : Type} (decode : Value → Except ε Message) (snapshot : Node)
    (vc : TeamViewController) : (vc.fetchMessages decode snapshot).ref = vc.ref := by
  unfold fetchMessages
  cases decodeChildren decode snapshot <;> rfl

end TeamViewController
end Teamstuff
