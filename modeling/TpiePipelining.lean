import TpiePipelining.Basic
import TpiePipelining.Node
import TpiePipelining.Equiv.Fetch
import TpiePipelining.Equiv.Datastructure
import TpiePipelining.Equiv.Step
import TpiePipelining.Equiv.Run
import TpiePipelining.Equiv.Pipeline
import TpiePipelining.Equiv.Exceptions
