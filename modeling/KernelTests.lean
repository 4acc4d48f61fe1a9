import KernelTests.CAgent.Answering
import KernelTests.CAgent.BufferCalls
import KernelTests.CAgent.Collisions
import KernelTests.CAgent.Escaping
import KernelTests.CAgent.ExitStatus
import KernelTests.CAgent.FileStore
import KernelTests.CAgent.Grading
import KernelTests.CAgent.Piping
import KernelTests.CAgent.Pointers
import KernelTests.CAgent.Ports
import KernelTests.CAgent.ReadBuffer
import KernelTests.CAgent.Timing
import KernelTests.BuildStorm.Artifact
import KernelTests.BuildStorm.Awards
import KernelTests.BuildStorm.Config
import KernelTests.BuildStorm.Influence
import KernelTests.BuildStorm.Runs
import KernelTests.BuildStorm.Tokens
import KernelTests.BuildStorm.Uptime
import KernelTests.BuildStorm.Verdicts
import KernelTests.SerialLine
import KernelTests.Memory.Heap
import KernelTests.Memory.Chain
import KernelTests.Memory.Text
import KernelTests.CJson.Node
import KernelTests.CJson.Tree
import KernelTests.CJson.Delete
import KernelTests.CJson.Links
import KernelTests.CJson.Create
import KernelTests.CJson.Walk
import KernelTests.CJson.Value
import KernelTests.CJson.Pointer
import KernelTests.CJson.Extent
import KernelTests.CJson.Draft
import KernelTests.CJson.Duplicate
import KernelTests.CJson.Read
import KernelTests.CJson.ParseBuffer
import KernelTests.CJson.Utf16
import KernelTests.CJson.ParseString
import KernelTests.CJson.Parse
import KernelTests.CJson.PrintBuffer
import KernelTests.CJson.Print
import KernelTests.CJson.RoundTrip
import KernelTests.CAgent.ServerHeap
import KernelTests.CAgent.RequestHeap
import KernelTests.Effects.Hosted
import KernelTests.CAgent.AgentHeap
