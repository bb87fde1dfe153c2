import Teamstuff.Model.RoundTrip
import Teamstuff.Helpers.OneInstant
import Teamstuff.Helpers.OlderDates
import Teamstuff.Controller.OneBadRecord
import Teamstuff.Controller.CellReuse
import Teamstuff.Controller.SwipeTarget
import Teamstuff.Controller.TeamIdRule
import Teamstuff.Controller.UpcomingEvents
import Teamstuff.Controller.AttendanceTable
import Teamstuff.Controller.EventDetailScreen
import Teamstuff.System.Answers
import Teamstuff.System.TeamKept
import Teamstuff.System.TeamExists
import Teamstuff.System.Session
import Teamstuff.System.Registration
import Teamstuff.System.SaveButton
import Teamstuff.System.TeamChange
import Teamstuff.System.ProfileUpdate
import Teamstuff.System.MessageFeed
import Teamstuff.Firebase.Repo
import Teamstuff.Firebase.PendingWrites
import Teamstuff.Firebase.TreeMap
import Teamstuff.Firebase.LatestState
import Teamstuff.Firebase.Connection
