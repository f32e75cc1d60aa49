import LiveQuiz.Auth.Tokens
import LiveQuiz.Authoring.Contract
import LiveQuiz.Authoring.Edits
import LiveQuiz.Authoring.Service
import LiveQuiz.Authoring.Walk
import LiveQuiz.Authoring.World
import LiveQuiz.Client.Socket
import LiveQuiz.Client.Store
import LiveQuiz.Client.Validation
import LiveQuiz.Dialogue.Contract
import LiveQuiz.Dialogue.Service
import LiveQuiz.Dialogue.Sound
import LiveQuiz.Dialogue.World
import LiveQuiz.Handshake.Contract
import LiveQuiz.Handshake.Service
import LiveQuiz.Handshake.World
import LiveQuiz.Hooks.Board
import LiveQuiz.Hooks.Names
import LiveQuiz.Hooks.Run
import LiveQuiz.Ids.Snowflake
import LiveQuiz.Intake.Contract
import LiveQuiz.Intake.Scan
import LiveQuiz.Intake.Service
import LiveQuiz.Intake.Walk
import LiveQuiz.Intake.World
import LiveQuiz.Lib.BitFields
import LiveQuiz.Lib.Confined
import LiveQuiz.Lib.Contract
import LiveQuiz.Lib.Coroutine
import LiveQuiz.Lib.Embed
import LiveQuiz.Lib.Grouping
import LiveQuiz.Lib.Guard
import LiveQuiz.Lib.History
import LiveQuiz.Lib.Json
import LiveQuiz.Lib.JsonRoundTrip
import LiveQuiz.Lib.Layer
import LiveQuiz.Lib.LockOrder
import LiveQuiz.Lib.Lockstep
import LiveQuiz.Lib.Machine
import LiveQuiz.Lib.Monitor
import LiveQuiz.Lib.Rounding
import LiveQuiz.Lib.Steps
import LiveQuiz.Lib.Transactions
import LiveQuiz.Lib.Triple
import LiveQuiz.Lobby.Contract
import LiveQuiz.Lobby.Phases
import LiveQuiz.Lobby.Service
import LiveQuiz.Lobby.Steps
import LiveQuiz.Lobby.Walk
import LiveQuiz.Lobby.World
import LiveQuiz.Model.Faults
import LiveQuiz.Model.Quiz
import LiveQuiz.Model.Redis
import LiveQuiz.Model.Runtime
import LiveQuiz.Model.Store
import LiveQuiz.Model.System
import LiveQuiz.Model.Types
import LiveQuiz.Moderation.Decide
import LiveQuiz.Protocol.Attribution
import LiveQuiz.Protocol.Award
import LiveQuiz.Protocol.Contract
import LiveQuiz.Protocol.Course
import LiveQuiz.Protocol.Discreet
import LiveQuiz.Protocol.Exec
import LiveQuiz.Protocol.Handover
import LiveQuiz.Protocol.Host
import LiveQuiz.Protocol.Layered
import LiveQuiz.Protocol.Locks
import LiveQuiz.Protocol.Moves
import LiveQuiz.Protocol.Phases
import LiveQuiz.Protocol.Questions
import LiveQuiz.Protocol.Rules
import LiveQuiz.Protocol.Run
import LiveQuiz.Protocol.Scheduler
import LiveQuiz.Protocol.Steps
import LiveQuiz.Protocol.Submit
import LiveQuiz.Protocol.Tables
import LiveQuiz.Protocol.Watch
import LiveQuiz.Publisher.Contract
import LiveQuiz.Publisher.Order
import LiveQuiz.Publisher.Producers
import LiveQuiz.Publisher.Refusals
import LiveQuiz.Publisher.Rests
import LiveQuiz.Publisher.Run
import LiveQuiz.Publisher.Service
import LiveQuiz.Publisher.Sources
import LiveQuiz.Publisher.World
import LiveQuiz.Results.Accuracy
import LiveQuiz.Results.Acknowledgements
import LiveQuiz.Results.Analytics
import LiveQuiz.Results.AnswerAttempts
import LiveQuiz.Results.AnswerFacts
import LiveQuiz.Results.Answers
import LiveQuiz.Results.ArmedOnce
import LiveQuiz.Results.AtMostOnce
import LiveQuiz.Results.Backends
import LiveQuiz.Results.Backoff
import LiveQuiz.Results.BufferRows
import LiveQuiz.Results.CacheKeys
import LiveQuiz.Results.Capacity
import LiveQuiz.Results.ClockSkew
import LiveQuiz.Results.Convergence
import LiveQuiz.Results.Counting
import LiveQuiz.Results.Courses
import LiveQuiz.Results.DeadLetter
import LiveQuiz.Results.Deadlock
import LiveQuiz.Results.DecidedOnce
import LiveQuiz.Results.DeliveryOrder
import LiveQuiz.Results.Dialogues
import LiveQuiz.Results.EditorSave
import LiveQuiz.Results.FailedSubmit
import LiveQuiz.Results.Fanout
import LiveQuiz.Results.FinalRanking
import LiveQuiz.Results.Freshness
import LiveQuiz.Results.Grace
import LiveQuiz.Results.Holders
import LiveQuiz.Results.Isolation
import LiveQuiz.Results.KickedOut
import LiveQuiz.Results.LateJoin
import LiveQuiz.Results.Lifecycle
import LiveQuiz.Results.ListEdits
import LiveQuiz.Results.MuteTargets
import LiveQuiz.Results.Nicknames
import LiveQuiz.Results.NoLoss
import LiveQuiz.Results.Numbering
import LiveQuiz.Results.OpenQuestion
import LiveQuiz.Results.OutgoingMessages
import LiveQuiz.Results.PauseResume
import LiveQuiz.Results.PausedScores
import LiveQuiz.Results.PhantomSeats
import LiveQuiz.Results.Playable
import LiveQuiz.Results.PositionUpdates
import LiveQuiz.Results.Positions
import LiveQuiz.Results.Presence
import LiveQuiz.Results.Published
import LiveQuiz.Results.QuestionMoves
import LiveQuiz.Results.QuestionOrder
import LiveQuiz.Results.RateLimit
import LiveQuiz.Results.Recovery
import LiveQuiz.Results.RefreshOnce
import LiveQuiz.Results.Rejoin
import LiveQuiz.Results.Reports
import LiveQuiz.Results.Resume
import LiveQuiz.Results.Retries
import LiveQuiz.Results.Reveal
import LiveQuiz.Results.ScoringLaw
import LiveQuiz.Results.Sentinel
import LiveQuiz.Results.SingleFlight
import LiveQuiz.Results.SingleUse
import LiveQuiz.Results.SnapshotRows
import LiveQuiz.Results.Snowflake
import LiveQuiz.Results.Standings
import LiveQuiz.Results.Statuses
import LiveQuiz.Results.Stranded
import LiveQuiz.Results.Terminal
import LiveQuiz.Results.Timers
import LiveQuiz.Results.Validation
import LiveQuiz.Results.Versions
import LiveQuiz.Results.WarmCache
import LiveQuiz.Results.WireFormat
import LiveQuiz.Rooms.Seats
import LiveQuiz.Rooms.Service
import LiveQuiz.Rooms.Turns
import LiveQuiz.Rooms.World
import LiveQuiz.Service.Analytics
import LiveQuiz.Service.AnswerAttempts
import LiveQuiz.Service.EndMatch
import LiveQuiz.Service.HostControls
import LiveQuiz.Service.Leaderboard
import LiveQuiz.Service.Questions
import LiveQuiz.Service.RateLimit
import LiveQuiz.Service.Scoring
import LiveQuiz.Service.Session
import LiveQuiz.Service.SubmitAnswer
import LiveQuiz.Session.Chain
import LiveQuiz.Session.Contract
import LiveQuiz.Session.Service
import LiveQuiz.Session.Sound
import LiveQuiz.Session.Steps
import LiveQuiz.Session.Walk
import LiveQuiz.Session.World
import LiveQuiz.Stream.Careful
import LiveQuiz.Stream.ClickHouse
import LiveQuiz.Stream.Once
import LiveQuiz.Stream.Rounds
import LiveQuiz.Stream.Types
import LiveQuiz.Stream.Wire
import LiveQuiz.Stream.Worker
import LiveQuiz.Stream.World
import LiveQuiz.Ws.Contract
import LiveQuiz.Ws.Run
import LiveQuiz.Ws.Service
import LiveQuiz.Ws.World
