import Desh.Access
import Desh.Alias
import Desh.Allocation
import Desh.Appearances
import Desh.Cmp
import Desh.Collect
import Desh.Completing
import Desh.Completion
import Desh.Contents
import Desh.Counting
import Desh.DictMap
import Desh.Dumped
import Desh.Environment
import Desh.Escape
import Desh.Eval
import Desh.Evaluating
import Desh.Ewait
import Desh.Export
import Desh.Extractmatches
import Desh.Fdmap
import Desh.Flow
import Desh.Forloop
import Desh.Getclosure
import Desh.Getopt
import Desh.Initializer
import Desh.Limit
import Desh.Names
import Desh.Nesting
import Desh.Newfd
import Desh.Pairing
import Desh.Pipeline
import Desh.Printing
import Desh.Proclist
import Desh.Provenance
import Desh.Quote
import Desh.Reimport
import Desh.Repl
import Desh.Running
import Desh.Scanning
import Desh.Scope
import Desh.Sequencing
import Desh.Sharing
import Desh.Sigblock
import Desh.Sigeffect
import Desh.Splitting
import Desh.Status
import Desh.Strhash
import Desh.Subscript
import Desh.Truncated
import Desh.Whatis
import Desh.Wordlist
