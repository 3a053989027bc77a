import BasicServer.Grammar
import BasicServer.Answers
import BasicServer.Arithmetic
import BasicServer.Locks
import BasicServer.Requests
import BasicServer.World
import BasicServer.Committed
import BasicServer.Serial
import BasicServer.IncrValue
import BasicServer.Increments
import BasicServer.Reading
import BasicServer.Values
import BasicServer.Dialogue
import BasicServer.Creation
import BasicServer.Client
import BasicServer.SetValue
import BasicServer.Validity
import BasicServer.Commute
import BasicServer.Turns
import BasicServer.Mirror
import BasicServer.Atomic
import BasicServer.Interleaved
import BasicServer.Rio
import BasicServer.Programs
import BasicServer.Alone
import BasicServer.Concurrent
import BasicServer.Connections
