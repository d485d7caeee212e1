import SystemsStack.Bypass.Mailbox
import SystemsStack.Bypass.TickFeed
import SystemsStack.Memory.ArenaBudget
import SystemsStack.Memory.PoolCopy
import SystemsStack.Memory.PoolRelease
import SystemsStack.Numa.Bind
import SystemsStack.Sbe.Accessors
import SystemsStack.Sbe.TickMsg
import SystemsStack.Sbe.TickObject
import SystemsStack.Spsc.Exceptions
import SystemsStack.Spsc.Handoff
import SystemsStack.Spsc.ReadyFlag
import SystemsStack.Telemetry.Accuracy
import SystemsStack.Telemetry.LatencyBuffer
import SystemsStack.Telemetry.Mean
import SystemsStack.Telemetry.ScanSafety
import SystemsStack.Uring.Backlog
import SystemsStack.Wiki.LinkStructure
import SystemsStack.Wiki.PathNormal
import SystemsStack.Wiki.Publishers
